/-
When the compiled tree does what the matrix calls for. There are two conditions, which follow the values of
the subjects through the matrices that `compile` makes: where a subject is `null`, no row with a `null`
pattern overtakes; and where a column of wildcards is passed over, its subject is not a local that is to be
assigned there and that a column behind it looks at.
-/
import EvilHaxe.Matcher.Extractors
import EvilHaxe.Matcher.NullRows
import Mathlib.Data.List.Nodup

namespace EvilHaxe.Matcher

/-- The locals of `d'` are among those of `d`. -/
def Deferred.Sub (d' d : Deferred) : Prop := ∀ v e, d'.lookup v = some e → d.lookup v = some e

/-- `compile_switch` makes no switch and no test for `null`. -/
def passedOver (ctx : MatcherContext) (subject : TExpr) (rows : List Row) : Bool :=
  !ctx.isExplicitNull subject && rows.all fun r => (r.patterns.head?.bind headCon).isNone

/-- The subject in the bindings of the default rows. -/
def defaultSubject (ctx : MatcherContext) (d : Deferred) (subject : TExpr) (rows : List Row) : TExpr :=
  if passedOver ctx subject rows then getScopedExpr d subject else subject

section

variable {V : Type} (R : Runtime V) (ctx : MatcherContext)
  (inOrder : Nat → Deferred → List TExpr → List Row → Env V → Prop)

/-- A local that is passed over is not used again, and the values meet the conditions in the matrix that a
switch on `subject` sends them to, whichever locals are then still to be assigned. -/
structure BelowSwitch (n : Nat) (d : Deferred) (subject : TExpr) (subjects : List TExpr) (rows : List Row)
    (ρ : Env V) : Prop where
  kept : passedOver ctx subject rows = true → getScopedExpr d subject ≠ subject →
    ∀ r ∈ rows, ∀ p ∈ subjects.zip r.patterns.tail, p.1 = subject → p.2 = .patAny
  null : R.isNull (evalExpr R ρ subject) = true → ∀ d', Deferred.Sub d' (markUsed subject d) →
    inOrder n d' subjects
      (rows.filterMap (nullRow subject) ++ default (defaultSubject ctx d subject rows) rows) ρ
  branch : R.isNull (evalExpr R ρ subject) = false → ∀ con, HasCon con rows →
    R.holds con (evalExpr R ρ subject) = true → ∀ d', Deferred.Sub d' (markUsed subject d) →
    inOrder (n + (getSubSubjects subject con).length) d'
      ((subLocals n (getSubSubjects subject con)).2 ++ subjects) (specialize subject con rows)
      (ρ.bind R (subLocals n (getSubSubjects subject con)).1)
  dflt : R.isNull (evalExpr R ρ subject) = false →
    (∀ con, HasCon con rows → R.holds con (evalExpr R ρ subject) = false) →
    ∀ d', Deferred.Sub d' (markUsed subject d) →
    inOrder n d' subjects (default (defaultSubject ctx d subject rows) rows) ρ

/-- The conditions on a matrix prepared for `compile_switch` or `compile_extractors`. -/
def InOrderColumn (n : Nat) (d : Deferred) : List TExpr → List Row → Env V → Prop
  | [], _, _ => True
  | subject :: subjects, rows, ρ =>
    (NoExtractor rows →
      (R.isNull (evalExpr R ρ subject) = true → Kept R ρ ((subject :: subjects).map (evalExpr R ρ)) rows) ∧
        BelowSwitch R ctx inOrder n d subject subjects rows ρ) ∧
    (¬ NoExtractor rows → ∀ c,
      extractorLoop subject (findExtractors subject 0 rows).1 n [] (findExtractors subject 0 rows).2 = .ok c →
      inOrder (n + c.binds.length) (c.binds ++ markUsed subject d) (subject :: c.subjects ++ subjects) c.cases
        (ρ.bind R (gens c.binds)))

end

/-- The conditions on a matrix of `compile`. A leaf that is passed over leads to the rows behind it. -/
def InOrder {V : Type} (R : Runtime V) (ctx : MatcherContext) :
    Nat → Nat → Deferred → List TExpr → List Row → Env V → Prop
  | 0, _, _, _, _, _ => True
  | _ + 1, _, _, _, [], _ => True
  | fuel + 1, n, d, subjects, r :: rows, ρ =>
    if r.patterns.all isWildcardPattern then
      Fails R ρ (subjects.map (evalExpr R ρ)) r → InOrder R ctx fuel n d subjects rows ρ
    else
      let cases := expand (r :: rows)
      let columns := selectColumn subjects cases
      InOrderColumn R ctx (InOrder R ctx fuel) n d columns.1 (expand columns.2) ρ

/-! The locals of the compiled code. Some of them are to be assigned at their first use, so that the environment
in which a tree runs agrees only in part with the one in which every local holds its value, which is the
environment that the rows of a matrix are read in. -/

variable {V : Type} {R : Runtime V}

/-! ## Deferred locals -/

theorem Deferred.Sub.refl (d : Deferred) : Deferred.Sub d d := fun _ _ h => h

theorem Deferred.Sub.trans {d d' d'' : Deferred} (h : Deferred.Sub d'' d') (h' : Deferred.Sub d' d) :
    Deferred.Sub d'' d :=
  fun v e hv => h' v e (h v e hv)

theorem Deferred.Sub.none {d d' : Deferred} (h : Deferred.Sub d' d) {v : Nat} (hv : d.lookup v = none) :
    d'.lookup v = none := by
  cases hd : d'.lookup v with
  | none => rfl
  | some e => rw [h v e hd] at hv; cases hv

theorem lookup_filter (p : Nat → Bool) (w : Nat) : ∀ d : Deferred,
    (d.filter fun b => p b.1).lookup w = if p w then d.lookup w else none
  | [] => by simp
  | (v, e) :: d => by
    have ih := lookup_filter p w d
    by_cases hw : w = v
    · subst hw
      cases hp : p w with
      | true => simp [hp]
      | false => simp [hp, ih]
    · have hb : (w == v) = false := beq_eq_false_iff_ne.2 hw
      cases hp : p v with
      | true => simp [hp, List.lookup_cons, hb, ih]
      | false => simp [hp, List.lookup_cons, hb, ih]

theorem lookup_markUsed_self (v : Nat) (d : Deferred) : (markUsed (.tLocal v) d).lookup v = none :=
  (lookup_filter (fun w => decide (w ≠ v)) v d).trans (if_neg (by simp))

theorem lookup_markUsed {s : TExpr} {d : Deferred} {w : Nat} (h : s ≠ .tLocal w) :
    (markUsed s d).lookup w = d.lookup w := by
  cases s with
  | tLocal v =>
    have hw : w ≠ v := fun he => h (by rw [he])
    exact (lookup_filter (fun w => decide (w ≠ v)) w d).trans (if_pos (by simpa using hw))
  | _ => rfl

theorem markUsed_sub (s : TExpr) (d : Deferred) : Deferred.Sub (markUsed s d) d := by
  intro w e h
  by_cases hs : s = .tLocal w
  · rw [hs, lookup_markUsed_self] at h
    cases h
  · rwa [lookup_markUsed hs] at h

theorem lookup_reset {d d' : Deferred} {s : TExpr} {w : Nat} (h : s ≠ .tLocal w) :
    (resetSubject d s d').lookup w = d'.lookup w := by
  cases s with
  | tLocal v =>
    have hb : (w == v) = false := beq_eq_false_iff_ne.2 fun he => h (by rw [he])
    cases hd : d.lookup v with
    | none => simp [resetSubject, hd]
    | some e => simp [resetSubject, hd, List.lookup_cons, hb]
  | _ => rfl

theorem lookup_reset_self {d d' : Deferred} {v : Nat} {e : TExpr} (h : d.lookup v = some e) :
    (resetSubject d (.tLocal v) d').lookup v = some e := by
  simp [resetSubject, h]

theorem resetSubject_sub {d d' : Deferred} (s : TExpr) (h : Deferred.Sub d' d) :
    Deferred.Sub (resetSubject d s d') d := by
  intro w e hw
  by_cases hs : s = .tLocal w
  · subst hs
    cases hd : d.lookup w with
    | none =>
      have hreset : resetSubject d (.tLocal w) d' = d' := by simp [resetSubject, hd]
      rw [hreset] at hw
      rw [h w e hw] at hd
      cases hd
    | some e' => rwa [lookup_reset_self hd] at hw
  · rw [lookup_reset hs] at hw
    exact h w e hw

/-! ## Environments -/

/-- Evaluating the expression assigns nothing. -/
def Plain (e : TExpr) : Prop := ∀ v e1, e ≠ .tAssign v e1

theorem run_plain {ρ : Env V} {e : TExpr} (h : Plain e) : ρ.run R e = ρ := by
  cases e with
  | tAssign v e1 => exact absurd rfl (h v e1)
  | _ => rfl

theorem TExpr.Below.plain {n : Nat} {e : TExpr} (h : e.Below n) : Plain e := by
  rintro v e1 rfl
  exact h

/-- The expression reads locals of `L`, and the assignment it may make is known. -/
def Ready (L : Nat → Prop) (A : Nat → TExpr → Prop) (e : TExpr) : Prop :=
  e.Within L ∧ ∀ v e1, e = .tAssign v e1 → A v e1

theorem Ready.mono {L L' : Nat → Prop} {A : Nat → TExpr → Prop} {e : TExpr} (h : Ready L A e)
    (hL : ∀ v, L v → L' v) : Ready L' A e :=
  ⟨h.1.mono hL, h.2⟩

variable (R) in
/-- In `ρ'` every local holds its value; `ρ` agrees with it on the locals of `L`. -/
structure Holds (L : Nat → Prop) (A : Nat → TExpr → Prop) (ρ ρ' : Env V) : Prop where
  agree : ρ'.Agree L ρ
  known : ∀ v e, A v e → ρ'.locals v = evalExpr R ρ' e

section

variable {L : Nat → Prop} {A : Nat → TExpr → Prop} {ρ ρ' : Env V}

theorem Holds.mono {L' : Nat → Prop} (h : Holds R L A ρ ρ') (hL : ∀ v, L' v → L v) : Holds R L' A ρ ρ' :=
  ⟨h.agree.mono hL, h.known⟩

theorem Holds.eval (h : Holds R L A ρ ρ') {e : TExpr} (he : e.Within L) : evalExpr R ρ e = evalExpr R ρ' e :=
  evalExpr_agree h.agree he

/-- An assignment gives a local its value, whether it had it or not. -/
theorem Holds.assign (h : Holds R L A ρ ρ') {v : Nat} {e : TExpr} (hA : A v e) (he : e.Within L) :
    Holds R (fun w => L w ∨ w = v) A (ρ.set (.gen v) (evalExpr R ρ e)) ρ' := by
  refine ⟨fun w hw => ?_, h.known⟩
  by_cases hwv : w = v
  · rw [hwv, h.known v e hA, ← h.eval he]
    exact if_pos rfl
  · rcases hw with hw | hw
    · exact (if_neg hwv).trans (h.agree w hw)
    · exact absurd hw hwv

theorem Holds.run (h : Holds R L A ρ ρ') {e : TExpr} (he : Ready L A e) : Holds R L A (ρ.run R e) ρ' := by
  cases e with
  | tAssign v e1 => exact (h.assign (he.2 v e1 rfl) he.1).mono fun w hw => .inl hw
  | _ => exact h

theorem Holds.setUser (h : Holds R L A ρ ρ') (x : Nat) (v : V) : Holds R L A (ρ.set (.user x) v) ρ' :=
  ⟨h.agree, h.known⟩

/-- The bindings of a leaf as a `Bind` node makes them. -/
def userBinds (bs : List (Nat × TExpr)) : List (TVar × TExpr) := bs.map fun b => (.user b.1, b.2)

theorem bindUser_other {x : Nat} : ∀ (bs : List (Nat × TExpr)) (ρ : Env V), x ∉ bs.map Prod.fst →
    (ρ.bind R (userBinds bs)).user x = ρ.user x
  | [], _, _ => rfl
  | b :: bs, ρ, h => by
    simp only [List.map_cons, List.mem_cons, not_or] at h
    have hrun : (ρ.run R b.2).user = ρ.user := by cases b.2 <;> rfl
    show (((ρ.run R b.2).set (.user b.1) (evalExpr R ρ b.2)).bind R (userBinds bs)).user x = _
    rw [bindUser_other bs _ h.2, ← hrun]
    exact if_neg h.1

/-- Each pattern variable gets its value. -/
theorem Holds.bindUser : ∀ (bs : List (Nat × TExpr)) {ρ : Env V}, Holds R L A ρ ρ' → (∀ b ∈ bs, Ready L A b.2) →
    (bs.map Prod.fst).Nodup → Holds R L A (ρ.bind R (userBinds bs)) ρ' ∧
      ∀ b ∈ bs, (ρ.bind R (userBinds bs)).user b.1 = some (evalExpr R ρ' b.2)
  | [], _, h, _, _ => ⟨h, nofun⟩
  | b :: bs, ρ, h, hready, hn => by
    obtain ⟨hb, hbs⟩ := List.forall_mem_cons.1 hready
    simp only [List.map_cons, List.nodup_cons] at hn
    obtain ⟨hholds, huser⟩ := Holds.bindUser bs ((h.run hb).setUser b.1 (evalExpr R ρ b.2)) hbs hn.2
    refine ⟨hholds, List.forall_mem_cons.2 ⟨?_, huser⟩⟩
    show (((ρ.run R b.2).set (.user b.1) (evalExpr R ρ b.2)).bind R (userBinds bs)).user b.1 = _
    rw [bindUser_other bs _ hn.1, ← h.eval hb.1]
    exact if_pos rfl

end

theorem lookup_of_mem {x : Nat} {v : V} : ∀ {β : List (Nat × V)}, (β.map Prod.fst).Nodup →
    (x, v) ∈ β → β.lookup x = some v
  | (y, w) :: β, hn, h => by
    simp only [List.map_cons, List.nodup_cons] at hn
    rcases List.mem_cons.1 h with he | hm
    · cases he; simp
    · have hne : x ≠ y := by
        rintro rfl
        exact hn.1 (List.mem_map.2 ⟨(x, v), hm, rfl⟩)
      rw [List.lookup_cons, beq_eq_false_iff_ne.2 hne]
      exact lookup_of_mem hn.2 hm

/-! ## Sub-subjects -/

theorem getSubSubjects_eval (ρ : Env V) (e : TExpr) : ∀ con : Con,
    (getSubSubjects e con).map (fun s => evalExpr R ρ s.2) = R.parts (evalExpr R ρ e) con
  | .conEnum _ ⟨_, some _⟩ => by
    refine List.ext_getElem? fun i => ?_
    simp [getSubSubjects, Runtime.parts, evalExpr, Function.comp_def]
  | .conEnum _ ⟨_, none⟩ => rfl
  | .conFields _ => by simp [getSubSubjects, Runtime.parts, evalExpr]
  | .conArray _ => by simp [getSubSubjects, Runtime.parts, evalExpr]
  | .conConst _ => rfl
  | .conTypeExpr _ => rfl
  | .conStatic _ _ => rfl

theorem getSubSubjects_within {L : Nat → Prop} {e : TExpr} (h : e.Within L) (con : Con) :
    ∀ s ∈ getSubSubjects e con, s.2.Within L ∧ Plain s.2 := by
  intro s hs
  match con with
  | .conEnum _ ⟨_, some _⟩ =>
    obtain ⟨_, _, rfl⟩ := List.mem_mapIdx.1 hs
    exact ⟨h, nofun⟩
  | .conFields _ =>
    obtain ⟨_, _, rfl⟩ := List.mem_map.1 hs
    exact ⟨h, nofun⟩
  | .conArray _ =>
    obtain ⟨_, _, rfl⟩ := List.mem_map.1 hs
    exact ⟨h, nofun⟩
  | .conEnum _ ⟨_, none⟩ | .conConst _ | .conTypeExpr _ | .conStatic _ _ => cases hs

theorem getSubSubjects_length (e : TExpr) : ∀ con : Con, (getSubSubjects e con).length = con.arity
  | .conEnum _ ⟨_, some _⟩ => by simp [getSubSubjects, Con.arity]
  | .conEnum _ ⟨_, none⟩ => rfl
  | .conFields _ => by simp [getSubSubjects, Con.arity]
  | .conArray _ => by simp [getSubSubjects, Con.arity]
  | .conConst _ => rfl
  | .conTypeExpr _ => rfl
  | .conStatic _ _ => rfl

theorem subLocals_mem : ∀ (n : Nat) (ss : List (String × TExpr)),
    ∀ e ∈ (subLocals n ss).2, ∃ v, e = .tLocal v ∧ n ≤ v ∧ v < n + ss.length
  | _, [] => nofun
  | n, s :: ss => by
    intro e he
    rcases List.mem_cons.1 he with rfl | he
    · exact ⟨n, rfl, Nat.le_refl n, Nat.lt_add_of_pos_right (Nat.succ_pos _)⟩
    · obtain ⟨v, hv, h1, h2⟩ := subLocals_mem (n + 1) ss e he
      refine ⟨v, hv, Nat.le_of_succ_le h1, ?_⟩
      rw [List.length_cons]
      omega

theorem subLocals_length : ∀ (n : Nat) (ss : List (String × TExpr)),
    (subLocals n ss).2.length = ss.length
  | _, [] => rfl
  | n, _ :: ss => congrArg (· + 1) (subLocals_length (n + 1) ss)

theorem bind_subLocals_cons {s : String × TExpr} (hs : Plain s.2) (n : Nat) (ss : List (String × TExpr)) (ρ : Env V) :
    ρ.bind R (subLocals n (s :: ss)).1 = (ρ.set (.gen n) (evalExpr R ρ s.2)).bind R (subLocals (n + 1) ss).1 := by
  show ((ρ.run R s.2).set (.gen n) (evalExpr R ρ s.2)).bind R (subLocals (n + 1) ss).1 = _
  rw [run_plain hs]

/-- The fresh locals hold the values of the sub-subjects; older ones keep theirs. -/
theorem bind_subLocals {m : Nat} : ∀ (n : Nat) (ss : List (String × TExpr)) (ρ : Env V), m ≤ n →
    (∀ s ∈ ss, s.2.Within (· < m) ∧ Plain s.2) →
    ρ.Agree (· < n) (ρ.bind R (subLocals n ss).1) ∧
      (subLocals n ss).2.map (evalExpr R (ρ.bind R (subLocals n ss).1)) =
        ss.map fun s => evalExpr R ρ s.2
  | _, [], _, _, _ => ⟨fun _ _ => rfl, rfl⟩
  | n, s :: ss, ρ, hm, hss => by
    obtain ⟨hs, hrest⟩ := List.forall_mem_cons.1 hss
    have hset := agree_set ρ n (evalExpr R ρ s.2)
    obtain ⟨hagree, hvals⟩ :=
      bind_subLocals (n + 1) ss (ρ.set (.gen n) (evalExpr R ρ s.2)) (Nat.le_succ_of_le hm) hrest
    rw [bind_subLocals_cons hs.2]
    refine ⟨fun v hv => (hagree v (Nat.lt_succ_of_lt hv)).trans (hset v hv), ?_⟩
    show evalExpr R _ (.tLocal n) :: (subLocals (n + 1) ss).2.map _ = _
    rw [List.map_cons]
    refine congr (congrArg _ ?_) ?_
    · exact (hagree n (Nat.lt_succ_self n)).trans (if_pos rfl)
    · refine hvals.trans (List.map_congr_left fun s' hs' => ?_)
      exact evalExpr_agree (hset.mono fun x hx => Nat.lt_of_lt_of_le hx hm) (hrest s' hs').1

/-- Where the sub-subjects have their values, their locals get the same values in both environments. -/
theorem Holds.bindSub {L : Nat → Prop} {A : Nat → TExpr → Prop} : ∀ (n : Nat) (ss : List (String × TExpr))
    {ρ ρ' : Env V}, Holds R L A ρ ρ' → (∀ v, L v → v < n) → (∀ v e, A v e → v < n ∧ e.Within (· < n)) →
    (∀ s ∈ ss, s.2.Within L ∧ Plain s.2) →
    Holds R (fun v => L v ∨ (n ≤ v ∧ v < n + ss.length)) A (ρ.bind R (subLocals n ss).1)
      (ρ'.bind R (subLocals n ss).1)
  | n, [], ρ, ρ', h, _, _, _ => h.mono fun v hv => by
    rcases hv with hv | hv
    · exact hv
    · rw [List.length_nil] at hv
      omega
  | n, s :: ss, ρ, ρ', h, hL, hA, hss => by
    obtain ⟨hs, hrest⟩ := List.forall_mem_cons.1 hss
    have hset : Holds R (fun v => L v ∨ v = n) A (ρ.set (.gen n) (evalExpr R ρ s.2))
        (ρ'.set (.gen n) (evalExpr R ρ' s.2)) := by
      refine ⟨fun v hv => ?_, fun v e hve => ?_⟩
      · by_cases hvn : v = n
        · subst hvn
          show (if v = v then evalExpr R ρ s.2 else _) = (if v = v then evalExpr R ρ' s.2 else _)
          rw [if_pos rfl, if_pos rfl, h.eval hs.1]
        · rcases hv with hv | hv
          · show (if v = n then _ else _) = (if v = n then _ else _)
            rw [if_neg hvn, if_neg hvn]
            exact h.agree v hv
          · exact absurd hv hvn
      · have hset := agree_set ρ' n (evalExpr R ρ' s.2)
        obtain ⟨hv, he⟩ := hA v e hve
        rw [hset v hv, evalExpr_agree hset he]
        exact h.known v e hve
    have ih := Holds.bindSub (n + 1) ss hset
      (fun v hv => by rcases hv with hv | rfl; exacts [Nat.lt_succ_of_lt (hL v hv), Nat.lt_succ_self v])
      (fun v e hve => ⟨Nat.lt_succ_of_lt (hA v e hve).1, (hA v e hve).2.mono fun x hx => Nat.lt_succ_of_lt hx⟩)
      (fun s hs => ⟨(hrest s hs).1.mono fun v hv => .inl hv, (hrest s hs).2⟩)
    rw [bind_subLocals_cons hs.2, bind_subLocals_cons hs.2]
    refine ih.mono fun v hv => ?_
    rw [List.length_cons] at hv
    by_cases hvn : v = n
    · exact .inl (.inr hvn)
    · rcases hv with hv | ⟨h1, h2⟩
      · exact .inl (.inl hv)
      · exact .inr ⟨by omega, by omega⟩

end EvilHaxe.Matcher
