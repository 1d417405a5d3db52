/-
What the conversion of a pattern gives: one rule for each step of `PatternM`, and what `make` returns at its head.
-/
import EvilHaxe.Matcher.ExprToPattern
import Mathlib.Tactic.Basic

namespace EvilHaxe.Matcher.ExprToPattern

variable {α β Ty : Type}

/-- From the state `s` the conversion returns `a` in the state `s'`. -/
def Gives (p : PatternM α) (s : PatternState) (a : α) (s' : PatternState) : Prop := p s = (.ok a, s')

/-- From the state `s` the conversion raises `e` in the state `s'`. -/
def Raises (p : PatternM α) (s : PatternState) (e : PatternError) (s' : PatternState) : Prop := p s = (.error e, s')

section

variable {p : PatternM α} {k : α → PatternM β} {s s' : PatternState} {a : α} {b : β}

theorem bind_apply : (p >>= k) s = match p s with
    | (.ok a, s1) => k a s1
    | (.error e, s1) => (.error e, s1) := by
  show ExceptT.bind p k s = _
  simp only [ExceptT.bind, ExceptT.mk, ExceptT.bindCont, bind, StateT.bind]
  rcases p s with ⟨_ | _, s1⟩ <;> rfl

theorem gives_bind : Gives (p >>= k) s b s' ↔ ∃ a s1, Gives p s a s1 ∧ Gives (k a) s1 b s' := by
  unfold Gives
  rw [bind_apply]
  rcases hp : p s with ⟨e | a, s1⟩
  · constructor
    · intro h; cases h
    · rintro ⟨_, _, h, -⟩; cases h
  · constructor
    · exact fun h => ⟨a, s1, rfl, h⟩
    · rintro ⟨_, _, h, h'⟩; cases h; exact h'

theorem raises_bind {e : PatternError} :
    Raises (p >>= k) s e s' ↔ Raises p s e s' ∨ ∃ a s1, Gives p s a s1 ∧ Raises (k a) s1 e s' := by
  unfold Gives Raises
  rw [bind_apply]
  rcases hp : p s with ⟨e1 | a, s1⟩
  · constructor
    · intro h; cases h; exact .inl rfl
    · rintro (h | ⟨_, _, h, -⟩)
      · cases h; rfl
      · cases h
  · constructor
    · exact fun h => .inr ⟨a, s1, rfl, h⟩
    · rintro (h | ⟨_, _, h, h'⟩)
      · cases h
      · cases h; exact h'

theorem raises_lift {r : Except PatternError α} {e : PatternError} :
    Raises (liftM r : PatternM α) s e s' ↔ r = .error e ∧ s = s' := by
  cases r with
  | ok a => exact ⟨nofun, nofun⟩
  | error e1 =>
    constructor
    · intro h; cases h; exact ⟨rfl, rfl⟩
    · rintro ⟨⟨⟩, rfl⟩; rfl

@[simp] theorem gives_pure {a' : α} : Gives (pure a) s a' s' ↔ a = a' ∧ s = s' := by
  constructor
  · intro h; cases h; exact ⟨rfl, rfl⟩
  · rintro ⟨rfl, rfl⟩; rfl

@[simp] theorem not_gives_throw {e : PatternError} : ¬ Gives (throw e : PatternM α) s a s' := nofun

@[simp] theorem gives_get {s1 : PatternState} : Gives (get : PatternM PatternState) s s1 s' ↔ s = s1 ∧ s = s' := by
  constructor
  · intro h; cases h; exact ⟨rfl, rfl⟩
  · rintro ⟨rfl, rfl⟩; rfl

@[simp] theorem gives_modify {f : PatternState → PatternState} {u : Unit} :
    Gives (modify f : PatternM Unit) s u s' ↔ f s = s' := by
  constructor
  · intro h; cases h; rfl
  · rintro rfl; rfl

@[simp] theorem gives_lift {r : Except PatternError α} : Gives (liftM r : PatternM α) s a s' ↔ r = .ok a ∧ s = s' := by
  cases r with
  | error e => exact ⟨nofun, nofun⟩
  | ok a' =>
    constructor
    · intro h; cases h; exact ⟨rfl, rfl⟩
    · rintro ⟨⟨⟩, rfl⟩; rfl

@[simp] theorem gives_raiseIf {c : Prop} [Decidable c] {e : PatternError} {u : Unit} :
    Gives (raiseIf c e) s u s' ↔ ¬ c ∧ s = s' := by
  unfold raiseIf
  split
  · next hc => exact iff_of_false not_gives_throw fun h => h.1 hc
  · next hc => exact gives_pure.trans ⟨fun h => ⟨hc, h.2⟩, fun h => ⟨rfl, h.2⟩⟩

theorem gives_tryCatch {h : PatternError → PatternM α} :
    Gives (tryCatch p h) s a s' ↔ Gives p s a s' ∨ ∃ e s1, Raises p s e s1 ∧ Gives (h e) s1 a s' := by
  have hcatch : tryCatch p h s = match p s with
      | (.ok a, s1) => (.ok a, s1)
      | (.error e, s1) => h e s1 := by
    show ExceptT.tryCatch p h s = _
    simp only [ExceptT.tryCatch, ExceptT.mk, bind, StateT.bind]
    rcases p s with ⟨_ | _, s1⟩ <;> rfl
  unfold Gives Raises
  rw [hcatch]
  rcases hp : p s with ⟨e | a', s1⟩
  · constructor
    · exact fun h => .inr ⟨e, s1, rfl, h⟩
    · rintro (h | ⟨_, _, h, h'⟩)
      · cases h
      · cases h; exact h'
  · constructor
    · exact fun h => .inl h
    · rintro (h | ⟨_, _, h, h'⟩)
      · exact h
      · cases h

end

/-! ## Known fields -/

variable (Γ : Typer Ty)

/-- More fuel finds the same fields. -/
theorem collectFields_mono : ∀ {n m : Nat} {t : Ty} {filter : Option (List String)} {known known' : KnownFields Ty},
    collectFields Γ n t filter known = .ok known' → n ≤ m → collectFields Γ m t filter known = .ok known'
  | 0, _, _, _, _, _, h, _ => by cases h
  | n + 1, 0, _, _, _, _, _, hle => absurd hle (Nat.not_succ_le_zero n)
  | n + 1, m + 1, t, filter, known, known', h, hle => by
    unfold collectFields at h ⊢
    split
    · next hs => rwa [hs] at h
    · next hs => rwa [hs] at h
    · next params c forward tl hs =>
      rw [hs] at h
      cases forward with
      | none => exact h
      | some sl =>
        simp only [bind, Except.bind] at h ⊢
        generalize hf : (if sl = [] then filter else _) = filter' at h ⊢
        cases hk : collectFields Γ n (Γ.getUnderlyingType ⟨params, some c, some sl⟩ tl) filter' known with
        | error e => rw [hk] at h; cases h
        | ok k =>
          rw [hk] at h
          rw [collectFields_mono hk (Nat.le_of_succ_le_succ hle)]
          exact h
    · next h1 h2 h3 =>
      split at h
      · next hs => exact absurd hs (h1 _)
      · next hs => exact absurd hs (h2 _ _)
      · next hs => exact absurd hs (h3 _ _ _ _)
      · cases h

theorem collectFields_unique {n m : Nat} {t : Ty} {filter : Option (List String)} {known k1 k2 : KnownFields Ty}
    (h1 : collectFields Γ n t filter known = .ok k1) (h2 : collectFields Γ m t filter known = .ok k2) : k1 = k2 := by
  have h1' := collectFields_mono Γ h1 (Nat.le_max_left n m)
  have h2' := collectFields_mono Γ h2 (Nat.le_max_right n m)
  rw [h1'] at h2'
  cases h2'
  rfl

/-- The names of the fields. -/
def names (known : KnownFields Ty) : List String := known.map fun f => f.1.cfName

theorem collectField_nodup {filter : Option (List String)} {known : KnownFields Ty} (cf : TClassField Ty) (t : Ty)
    (h : (names known).Nodup) : (names (collectField filter known cf t)).Nodup := by
  have hadd : (names ((cf, t) :: known.filter (·.1.cfName ≠ cf.cfName))).Nodup := by
    refine List.nodup_cons.2 ⟨?_, (List.filter_sublist.map _).nodup h⟩
    simp
  unfold collectField
  split
  · split
    · exact hadd
    · exact h
  · exact hadd

/-- A fold over the fields of a type keeps the names apart. -/
theorem foldl_nodup {γ : Type} {f : KnownFields Ty → γ → KnownFields Ty}
    (hf : ∀ known x, (names known).Nodup → (names (f known x)).Nodup) :
    ∀ (l : List γ) (known : KnownFields Ty), (names known).Nodup → (names (l.foldl f known)).Nodup
  | [], _, h => h
  | x :: l, known, h => foldl_nodup hf l (f known x) (hf known x h)

theorem collectClassFields_nodup (filter : Option (List String)) : ∀ (c : TClass Ty) (tl : List Ty) (known : KnownFields Ty),
    (names known).Nodup → (names (collectClassFields Γ filter c tl known)).Nodup
  | .mk path params clSuper fields statics, tl, known, h => by
    unfold collectClassFields
    refine foldl_nodup (fun known cf h => ?_) fields _ ?_
    · split
      · exact collectField_nodup cf _ h
      · exact h
    · cases clSuper with
      | none => exact h
      | some sup => exact collectClassFields_nodup filter sup.1 _ known h

theorem collectFields_nodup : ∀ {n : Nat} {t : Ty} {filter : Option (List String)} {known known' : KnownFields Ty},
    (names known).Nodup → collectFields Γ n t filter known = .ok known' → (names known').Nodup
  | 0, _, _, _, _, _, h => by cases h
  | n + 1, t, filter, known, known', hn, h => by
    unfold collectFields at h
    split at h
    · cases h
      exact foldl_nodup (fun known cf h => collectField_nodup cf _ h) _ known hn
    · cases h
      exact collectClassFields_nodup Γ filter _ _ known hn
    · next params c forward tl hs =>
      have hstatics : ∀ known1 : KnownFields Ty, (names known1).Nodup →
          (names (c.clOrderedStatics.foldl (fun known cf =>
            if cf.cfImpl then collectField filter known cf (Γ.applyParams params tl cf.cfType) else known) known1)).Nodup := by
        refine fun known1 h1 => foldl_nodup (fun known cf h => ?_) _ known1 h1
        split
        · exact collectField_nodup cf _ h
        · exact h
      cases forward with
      | none =>
        cases h
        exact hstatics known hn
      | some sl =>
        simp only [bind, Except.bind] at h
        generalize hf : (if sl = [] then filter else _) = filter' at h
        cases hk : collectFields Γ n (Γ.getUnderlyingType ⟨params, some c, some sl⟩ tl) filter' known with
        | error e => rw [hk] at h; cases h
        | ok k =>
          rw [hk] at h
          cases h
          exact hstatics k (collectFields_nodup hn hk)
    · cases h

end EvilHaxe.Matcher.ExprToPattern
