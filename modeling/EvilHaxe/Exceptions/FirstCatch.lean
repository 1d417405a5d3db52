/-
Which catch the lowered catches get to, against the first catch of the user that accepts the value. On a target that
catches anything a `haxe.ValueException` may be passed over by a catch of what it carries, and a value by a catch of
`haxe.ValueException`; on the other targets a catch in front of the chain of tests does not unwrap.
-/
import EvilHaxe.Exceptions.Order

namespace EvilHaxe.Exceptions

variable {α : Type} {ctx : Context} {R : Target α} {v : Value ctx.H α}

/-! ## What accepts a value -/

theorem isHaxeException_of_wildcard {t : Ty} (h : ctx.haxeExceptionType.fastEq t.followWithAbstracts = true) :
    t.isHaxeException = true := by
  rw [Ty.isHaxeException, Ty.inst_fastEq_iff.1 h]
  exact ctx.H.isHaxeExceptionClass_exception

theorem ifAccepts_wildcard {c : Catch} (h : ctx.isHaxeWildcardCatch c.vType = true) : ifAccepts ctx R v c = true := by
  unfold ifAccepts
  rcases Bool.or_eq_true_iff.1 h with h | h
  · have hx : c.vType.isHaxeException = false := by rw [Ty.isHaxeException, Ty.isTDynamic_iff.1 h]
    simp [hx, h]
  · simp [isHaxeException_of_wildcard h, h]

theorem accepts_of_isOfType {c : Catch} (h : v.isOfType R c.vType = true) : accepts ctx R v c = true := by
  simp [accepts, h]

theorem accepts_of_originallyOf {c : Catch} (h : originallyOf ctx R v c = true) : accepts ctx R v c = true := by
  simp [accepts, h]

theorem accepts_of_wildcard {c : Catch} (h : ctx.isHaxeWildcardCatch c.vType = true) : accepts ctx R v c = true := by
  simp [accepts, h]

theorem accepts_of_ifAccepts {c : Catch} (hv : v.isOfType R ctx.wildcardCatchType = true)
    (h : ifAccepts ctx R v c = true) : accepts ctx R v c = true := by
  unfold ifAccepts at h
  split_ifs at h with hx
  · rcases Bool.or_eq_true_iff.1 h with h | h
    · exact accepts_of_wildcard (by simp [Context.isHaxeWildcardCatch, h])
    · simp [accepts, hx, h]
  · rcases Bool.or_eq_true_iff.1 h with h | h
    · rcases Bool.or_eq_true_iff.1 h with h | h
      · exact accepts_of_wildcard (by simp [Context.isHaxeWildcardCatch, h])
      · rcases ctx.wildcard_native with hw | ⟨cls, hw⟩
        · refine accepts_of_wildcard ?_
          rw [hw] at h
          cases hc : c.vType.followWithAbstracts <;> simp_all [Ty.fastEq, Ty.isTDynamic, Context.isHaxeWildcardCatch]
        · rw [hw] at h hv
          exact accepts_of_isOfType ((Value.isOfType_inst R (Ty.inst_fastEq_iff.1 h)).trans hv)
    · exact accepts_of_originallyOf h

/-- A type of exceptions that the exception made for a value has is a wildcard, or `haxe.ValueException`. -/
theorem valueCatch_of_caught {c : Catch} (hx : c.vType.isHaxeException = true)
    (hw : ctx.isHaxeWildcardCatch c.vType = false) (hn : v.isOfType R c.vType = false)
    (h : (v.caught R).isOfType R c.vType = true) : ctx.isValueCatch c.vType = true := by
  cases v with
  | exception | valueException => exact absurd (hn.symm.trans h) Bool.false_ne_true
  | plain a =>
    rw [ctx.isValueCatch_iff]
    unfold Ty.isHaxeException at hx
    cases hc : c.vType.followWithAbstracts with
    | tInst cls =>
      rw [hc] at hx
      have hcls : cls = ctx.H.valueExceptionClass ∨ cls = ctx.H.haxeExceptionClass := by
        rw [Value.isOfType_inst R hc] at h
        unfold Value.caught at h
        dsimp only at h
        split_ifs at h
        · exact .inr (ctx.H.bases cls h hx)
        · exact ctx.H.of_value_instanceOf h hx
      rcases hcls with rfl | rfl
      · rfl
      · simp [Context.isHaxeWildcardCatch, hc, Context.haxeExceptionType, Ty.fastEq] at hw
    | tDynamic | tEnum | tAbstract | tOther => rw [hc] at hx; cases hx

/-! ## The condition -/

section Reached

variable (ctx : Context) (R : Target α) (v : Value ctx.H α)

/-- The catches before the first wildcard. -/
def front (catches : List Catch) : List Catch := catches.takeWhile fun c => !ctx.isHaxeWildcardCatch c.vType

/-- The catches before the first wildcard or `haxe.ValueException`. -/
def segment (catches : List Catch) : List Catch :=
  catches.takeWhile fun c => !ctx.isHaxeWildcardCatch c.vType && !ctx.isValueCatch c.vType

/-- The catches after the last one of `haxe.ValueException`. -/
def lastSegment : List Catch → List Catch
  | [] => []
  | c :: rest => if (c :: rest).any fun x => ctx.isValueCatch x.vType then lastSegment rest else c :: rest

/-- The first catch `c` that accepts the value is not passed over, on a target that catches anything.

A wildcard is reached by a `haxe.ValueException` when no catch before it waits for what the exception carries. Another
catch is reached by a value of its own type. `catch(e:haxe.ValueException)` is also reached by a value which is thrown
as it is, when no catch after it takes the value and none waits at the wildcard. The rest is reached by what a
`haxe.ValueException` carries, when no catch of the same group after it takes the exception or what it carries. -/
def ReachedAnything (pre : List Catch) (c : Catch) (post : List Catch) : Prop :=
  if ctx.isHaxeWildcardCatch c.vType then v.isValueException = true → ∀ x ∈ pre, x.vType.isHaxeException = true
  else
    v.isOfType R c.vType = true ∨
    (c.vType.isHaxeException = true ∧ (v.caught R).isOfType R c.vType = true ∧
      (∀ x ∈ front ctx post, v.isOfType R x.vType = false) ∧
      ((post.any fun x => ctx.isHaxeWildcardCatch x.vType) = true →
        ∀ x ∈ lastSegment ctx (front ctx post), x.vType.isHaxeException = true)) ∨
    (v.isValueException = true ∧ c.vType.isHaxeException = false ∧
      ∀ x ∈ segment ctx post, v.isOfType R x.vType = false ∧
        (originallyOf ctx R v x = true → x.vType.isHaxeException = true))

/-- A catch of a native type, which stays as it is when only such catches are before it. -/
def Leading (c : Catch) : Prop := ctx.isNativeCatch c.vType = true ∧ ctx.isHaxeWildcardCatch c.vType = false

/-- The first catch `c` that accepts the value is not passed over, on another target: among the leading catches of native
types it has to accept the value as it is, after them it is tested on the exception or on what that unwraps to. -/
def ReachedNative (pre : List Catch) (c : Catch) : Prop :=
  ((∀ x ∈ pre ++ [c], Leading ctx x) → v.isOfType R c.vType = true) ∧
    ((∃ x ∈ pre ++ [c], ¬ Leading ctx x) → ifAccepts ctx R v c = true)

def Reached (pre : List Catch) (c : Catch) (post : List Catch) : Prop :=
  if ctx.catchesAnything then ReachedAnything ctx R v pre c post else ReachedNative ctx R v pre c

end Reached

/-! ## Steps of `pick` on a target that catches anything -/

section Anything

variable {handle : List Catch} {valueCatch : Option Catch} {c : Catch} {rest : List Catch}

theorem pick_wildcard (hw : ctx.isHaxeWildcardCatch c.vType = true) :
    pick ctx R v handle valueCatch (c :: rest) =
      if handle = [] then (valueCatch.toList ++ c :: rest).find? (ifAccepts ctx R v)
      else if v.isValueException then handle.find? (originallyOf ctx R v)
      else some c := by
  rw [pick, if_pos hw, List.find?_cons_of_pos (ifAccepts_wildcard hw)]

theorem pick_value (ha : ctx.catchesAnything = true) (hc : ctx.isValueCatch c.vType = true) :
    pick ctx R v handle valueCatch (c :: rest) =
      if v.isValueException then some ((handle.find? (originallyOf ctx R v)).getD c)
      else pick ctx R v [] (some (valueCatch.getD c)) rest := by
  rw [pick, if_neg (by simp [ctx.not_wildcard_valueCatch hc]), if_pos (by simp [ha, hc]), isOfType_valueCatch hc]

theorem pick_native (ha : ctx.catchesAnything = true) (hw : ctx.isHaxeWildcardCatch c.vType = false)
    (hc : ctx.isValueCatch c.vType = false) :
    pick ctx R v handle valueCatch (c :: rest) =
      if v.isOfType R c.vType then some c
      else pick ctx R v (if c.vType.isHaxeException then handle else c :: handle) valueCatch rest := by
  rw [pick, if_neg (by simp [hw]), if_neg (by simp [hc]), if_pos (by simp [Context.isNativeCatch, ha])]
  cases c.vType.isHaxeException <;> simp [ha]

/-- What is picked is in the list, or waited before it. -/
theorem pick_mem (ha : ctx.catchesAnything = true) : ∀ (catches handle : List Catch) (valueCatch : Option Catch) {d : Catch},
    pick ctx R v handle valueCatch catches = some d →
      d ∈ catches ∨ (valueCatch = some d ∧ ifAccepts ctx R v d = true) ∨
        (v.isValueException = true ∧ handle.find? (originallyOf ctx R v) = some d)
  | [], handle, valueCatch, d, h => by
    rw [pick] at h
    split_ifs at h with hh
    · exact .inr (.inr ⟨hh.2, h⟩)
    · cases valueCatch with
      | none => cases h
      | some x =>
        have hx := List.find?_some h
        have hm := List.mem_of_find?_eq_some h
        simp only [Option.toList_some, List.mem_singleton] at hm
        exact .inr (.inl ⟨by rw [hm], hx⟩)
  | c :: rest, handle, valueCatch, d, h => by
    by_cases hw : ctx.isHaxeWildcardCatch c.vType = true
    · rw [pick_wildcard hw] at h
      split_ifs at h with h1 h2
      · have hx := List.find?_some h
        rcases List.mem_append.1 (List.mem_of_find?_eq_some h) with hm | hm
        · cases valueCatch with
          | none => cases hm
          | some x =>
            simp only [Option.toList_some, List.mem_singleton] at hm
            exact .inr (.inl ⟨by rw [hm], hx⟩)
        · exact .inl hm
      · exact .inr (.inr ⟨h2, h⟩)
      · cases h
        exact .inl (List.mem_cons_self ..)
    · rw [Bool.not_eq_true] at hw
      by_cases hc : ctx.isValueCatch c.vType = true
      · rw [pick_value ha hc] at h
        split_ifs at h with h1
        · cases hf : handle.find? (originallyOf ctx R v) with
          | none =>
            rw [hf] at h
            cases h
            exact .inl (List.mem_cons_self ..)
          | some x =>
            rw [hf] at h
            cases h
            exact .inr (.inr ⟨h1, rfl⟩)
        · rcases pick_mem ha rest [] _ h with h | ⟨h, hx⟩ | ⟨_, h⟩
          · exact .inl (List.mem_cons_of_mem _ h)
          · cases valueCatch with
            | none =>
              cases h
              exact .inl (List.mem_cons_self ..)
            | some x => exact .inr (.inl ⟨h, hx⟩)
          · cases h
      · rw [Bool.not_eq_true] at hc
        rw [pick_native ha hw hc] at h
        split_ifs at h with h1 h2
        · cases h
          exact .inl (List.mem_cons_self ..)
        · rcases pick_mem ha rest _ _ h with h | h | h
          · exact .inl (List.mem_cons_of_mem _ h)
          · exact .inr (.inl h)
          · exact .inr (.inr h)
        · rcases pick_mem ha rest _ _ h with h | h | ⟨hx, h⟩
          · exact .inl (List.mem_cons_of_mem _ h)
          · exact .inr (.inl h)
          · rw [List.find?_cons] at h
            split at h
            · cases h
              exact .inl (List.mem_cons_self ..)
            · exact .inr (.inr ⟨hx, h⟩)

/-! ## Values that are no `haxe.ValueException` -/

theorem not_isOfType_valueCatch (hval : v.isValueException = false) (hc : ctx.isValueCatch c.vType = true) :
    v.isOfType R c.vType = false := (isOfType_valueCatch hc).trans hval

/-- The catches before the one that accepts are passed. Those of `haxe.ValueException` among them do not get the value. -/
theorem pick_passes (ha : ctx.catchesAnything = true) (hval : v.isValueException = false) :
    ∀ (pre handle : List Catch) (valueCatch : Option Catch), (∀ x ∈ pre, accepts ctx R v x = false) →
      (∀ d ∈ valueCatch, ctx.isValueCatch d.vType = true ∧ ifAccepts ctx R v d = false) →
      v.isOfType R ctx.wildcardCatchType = true →
      ∃ (handle' : List Catch) (valueCatch' : Option Catch),
        (∀ d ∈ valueCatch', ctx.isValueCatch d.vType = true ∧ ifAccepts ctx R v d = false) ∧
        ∀ rest, pick ctx R v handle valueCatch (pre ++ rest) = pick ctx R v handle' valueCatch' rest
  | [], handle, valueCatch, _, hd, _ => ⟨handle, valueCatch, hd, fun _ => rfl⟩
  | c :: pre, handle, valueCatch, hp, hd, hv => by
    obtain ⟨hc, hp⟩ := List.forall_mem_cons.1 hp
    have hw : ctx.isHaxeWildcardCatch c.vType = false := by
      by_contra hw
      rw [accepts_of_wildcard (by simpa using hw)] at hc
      cases hc
    by_cases hx : ctx.isValueCatch c.vType = true
    · have hdead : ∀ d ∈ some (valueCatch.getD c), ctx.isValueCatch d.vType = true ∧ ifAccepts ctx R v d = false := by
        intro d h
        cases valueCatch with
        | none =>
          cases h
          refine ⟨hx, ?_⟩
          by_contra hi
          rw [accepts_of_ifAccepts hv (by simpa using hi)] at hc
          cases hc
        | some x => exact hd d h
      obtain ⟨handle', valueCatch', hd', h⟩ := pick_passes ha hval pre [] _ hp hdead hv
      refine ⟨handle', valueCatch', hd', fun rest => ?_⟩
      rw [List.cons_append, pick_value ha hx, if_neg (by simp [hval]), h]
    · rw [Bool.not_eq_true] at hx
      have hn : ¬ v.isOfType R c.vType = true := fun h => by
        rw [accepts_of_isOfType h] at hc
        cases hc
      obtain ⟨handle', valueCatch', hd', h⟩ :=
        pick_passes ha hval pre (if c.vType.isHaxeException then handle else c :: handle) valueCatch hp hd hv
      refine ⟨handle', valueCatch', hd', fun rest => ?_⟩
      rw [List.cons_append, pick_native ha hw hx, if_neg hn, h]

theorem lastSegment_of_not_any : ∀ {l : List Catch}, (l.any fun x => ctx.isValueCatch x.vType) = false → lastSegment ctx l = l
  | [], _ => rfl
  | c :: rest, h => by rw [lastSegment, if_neg (by simp [h])]

/-- A catch of `haxe.ValueException` that accepts the value is picked when no catch after it takes the value, and none
waits at the wildcard. -/
theorem pick_pending (ha : ctx.catchesAnything = true) (hval : v.isValueException = false) {d : Catch}
    (hd : ifAccepts ctx R v d = true) : ∀ post handle : List Catch, d ∉ post →
      (pick ctx R v handle (some d) post = some d ↔
        (∀ x ∈ front ctx post, v.isOfType R x.vType = false) ∧
        ((post.any fun x => ctx.isHaxeWildcardCatch x.vType) = true →
          (handle = [] ∨ ((front ctx post).any fun x => ctx.isValueCatch x.vType) = true) ∧
          ∀ x ∈ lastSegment ctx (front ctx post), x.vType.isHaxeException = true))
  | [], handle, _ => by simp [pick, hval, hd, front]
  | c :: rest, handle, hm => by
    obtain ⟨hdc, hm⟩ := List.ne_and_not_mem_of_not_mem_cons hm
    by_cases hw : ctx.isHaxeWildcardCatch c.vType = true
    · have hf : front ctx (c :: rest) = [] := by simp [front, hw]
      rw [pick_wildcard hw, hf]
      split_ifs with h1 h2
      · simp [hd, h1, lastSegment]
      · rw [hval] at h2
        cases h2
      · simp [h1, hw, Ne.symm hdc]
    · rw [Bool.not_eq_true] at hw
      have hf : front ctx (c :: rest) = c :: front ctx rest := by simp [front, hw]
      have hany : ((c :: rest).any fun x => ctx.isHaxeWildcardCatch x.vType) = rest.any fun x => ctx.isHaxeWildcardCatch x.vType := by
        simp [hw]
      rw [hf, hany]
      by_cases hc : ctx.isValueCatch c.vType = true
      · rw [pick_value ha hc, if_neg (by simp [hval]), Option.getD_some, pick_pending ha hval hd rest [] hm]
        have hl : lastSegment ctx (c :: front ctx rest) = lastSegment ctx (front ctx rest) := by
          rw [lastSegment, if_pos (by simp [hc])]
        rw [hl]
        simp [not_isOfType_valueCatch hval hc, hc]
      · rw [Bool.not_eq_true] at hc
        rw [pick_native ha hw hc]
        cases hn : v.isOfType R c.vType with
        | true => simp [hn, Ne.symm hdc]
        | false =>
          rw [if_neg (by simp), pick_pending ha hval hd rest _ hm]
          simp only [List.forall_mem_cons, hn, true_and, List.any_cons, hc, Bool.false_or]
          cases hany : (front ctx rest).any fun x => ctx.isValueCatch x.vType with
          | true =>
            have hl : lastSegment ctx (c :: front ctx rest) = lastSegment ctx (front ctx rest) := by
              rw [lastSegment, if_pos (by rw [List.any_cons, hany, Bool.or_true])]
            rw [hl]
            simp
          | false =>
            have hl : lastSegment ctx (c :: front ctx rest) = c :: front ctx rest :=
              lastSegment_of_not_any (by rw [List.any_cons, hany, hc, Bool.or_false])
            rw [hl, lastSegment_of_not_any hany]
            cases hx : c.vType.isHaxeException <;> simp [hx]

/-! ## Values that are a `haxe.ValueException` -/

theorem not_accepts {x : Catch} (h : accepts ctx R v x = false) :
    ctx.isHaxeWildcardCatch x.vType = false ∧ v.isOfType R x.vType = false ∧ originallyOf ctx R v x = false := by
  simp only [accepts, Bool.or_eq_false_iff] at h
  exact ⟨h.1.1.1, h.1.1.2, h.2⟩

/-- The catches before the one that accepts are passed. Those of no type of exceptions wait. -/
theorem pick_waits (ha : ctx.catchesAnything = true) (hval : v.isValueException = true) :
    ∀ pre handle : List Catch, (∀ x ∈ pre, accepts ctx R v x = false) →
      handle.find? (originallyOf ctx R v) = none →
      ∃ handle' : List Catch, handle'.find? (originallyOf ctx R v) = none ∧
        (handle' = [] ↔ handle = [] ∧ ∀ x ∈ pre, x.vType.isHaxeException = true) ∧
        ∀ rest, pick ctx R v handle none (pre ++ rest) = pick ctx R v handle' none rest
  | [], handle, _, hf => ⟨handle, hf, by simp, fun _ => rfl⟩
  | c :: pre, handle, hp, hf => by
    obtain ⟨hc, hp⟩ := List.forall_mem_cons.1 hp
    obtain ⟨hw, hn, ho⟩ := not_accepts hc
    have hx : ctx.isValueCatch c.vType = false := by
      by_contra hx
      rw [isOfType_valueCatch (by simpa using hx), hval] at hn
      cases hn
    obtain ⟨handle', hf', hnil, h⟩ := pick_waits ha hval pre (if c.vType.isHaxeException then handle else c :: handle) hp
      (by split_ifs; exacts [hf, by rw [List.find?_cons_of_neg (by simp [ho]), hf]])
    refine ⟨handle', hf', ?_, fun rest => ?_⟩
    · rw [hnil, List.forall_mem_cons]
      cases c.vType.isHaxeException <;> simp
    · rw [List.cons_append, pick_native ha hw hx, if_neg (by simp [hn]), h]

/-- A catch that waits is picked when no catch of its group after it takes the exception, or what it carries. -/
theorem pick_waiting (ha : ctx.catchesAnything = true) (hval : v.isValueException = true) {d : Catch} :
    ∀ post handle : List Catch, handle.find? (originallyOf ctx R v) = some d → d ∉ post →
      (pick ctx R v handle none post = some d ↔
        ∀ x ∈ segment ctx post, v.isOfType R x.vType = false ∧
          (originallyOf ctx R v x = true → x.vType.isHaxeException = true))
  | [], handle, hd, _ => by
    have hne : handle ≠ [] := by rintro rfl; cases hd
    simp [pick, hval, hne, hd, segment]
  | c :: rest, handle, hd, hm => by
    obtain ⟨hdc, hm⟩ := List.ne_and_not_mem_of_not_mem_cons hm
    have hne : handle ≠ [] := by rintro rfl; cases hd
    by_cases hw : ctx.isHaxeWildcardCatch c.vType = true
    · rw [pick_wildcard hw, if_neg hne, if_pos hval]
      simp [segment, hw, hd]
    · rw [Bool.not_eq_true] at hw
      by_cases hc : ctx.isValueCatch c.vType = true
      · rw [pick_value ha hc, if_pos hval, hd]
        simp [segment, hc]
      · rw [Bool.not_eq_true] at hc
        have hs : segment ctx (c :: rest) = c :: segment ctx rest := by simp [segment, hw, hc]
        rw [pick_native ha hw hc, hs, List.forall_mem_cons]
        cases hn : v.isOfType R c.vType with
        | true => simp [Ne.symm hdc]
        | false =>
          rw [if_neg (by simp)]
          cases hx : c.vType.isHaxeException with
          | true => simpa using pick_waiting ha hval rest handle hd hm
          | false =>
            cases ho : originallyOf ctx R v c with
            | false => simpa using pick_waiting ha hval rest (c :: handle) (by rw [List.find?_cons_of_neg (by simp [ho]), hd]) hm
            | true =>
              simp only [Bool.false_eq_true, if_false, and_false, imp_false, not_true_eq_false, false_and, iff_false]
              intro h
              rcases pick_mem ha rest _ _ h with h | ⟨h, _⟩ | ⟨_, h⟩
              · exact hm h
              · cases h
              · rw [List.find?_cons_of_pos ho] at h
                exact hdc (Option.some.inj h).symm

end Anything

/-! ## The catch that is picked -/

section First

variable {pre : List Catch} {c : Catch} {post : List Catch}

theorem find?_split {p : Catch → Bool} (hpre : ∀ x ∈ pre, p x = false) (hc : c ∉ post) :
    (pre ++ c :: post).find? p = some c ↔ p c = true := by
  rw [List.find?_append, List.find?_eq_none.2 (by simpa using hpre), Option.none_or]
  cases h : p c with
  | true => simp [List.find?_cons_of_pos h]
  | false =>
    rw [List.find?_cons_of_neg (by simp [h])]
    simp only [Bool.false_eq_true, iff_false]
    exact fun hf => hc (List.mem_of_find?_eq_some hf)

theorem ifAccepts_valueCatch (hc : ctx.isValueCatch c.vType = true) :
    ifAccepts ctx R v c = (v.caught R).isOfType R c.vType := by
  have hw := ctx.not_wildcard_valueCatch hc
  simp only [Context.isHaxeWildcardCatch, Bool.or_eq_false_iff] at hw
  rw [ifAccepts, if_pos (ctx.isHaxeException_valueCatch hc), hw.2, Bool.false_or]

theorem ifAccepts_congr {d : Catch} (hc : ctx.isValueCatch c.vType = true) (hd : ctx.isValueCatch d.vType = true) :
    ifAccepts ctx R v c = ifAccepts ctx R v d := by
  rw [ifAccepts_valueCatch hc, ifAccepts_valueCatch hd, Value.isOfType_inst R (ctx.isValueCatch_iff.1 hc),
    Value.isOfType_inst R (ctx.isValueCatch_iff.1 hd)]

theorem pick_first_other (ha : ctx.catchesAnything = true) (hv : v.isOfType R ctx.wildcardCatchType = true)
    (hval : v.isValueException = false) (hpre : ∀ x ∈ pre, accepts ctx R v x = false) (hpost : c ∉ post) :
    pick ctx R v [] none (pre ++ c :: post) = some c ↔ ReachedAnything ctx R v pre c post := by
  obtain ⟨handle, valueCatch, hdead, hpass⟩ := pick_passes ha hval pre [] none hpre (by simp) hv
  rw [hpass, ReachedAnything]
  by_cases hw : ctx.isHaxeWildcardCatch c.vType = true
  · have hfind : (valueCatch.toList ++ c :: post).find? (ifAccepts ctx R v) = some c :=
      (find?_split (by simpa using fun d hd => (hdead d hd).2) hpost).2 (ifAccepts_wildcard hw)
    rw [pick_wildcard hw, if_pos hw, hfind]
    simp [hval]
  · rw [if_neg hw]
    rw [Bool.not_eq_true] at hw
    by_cases hc : ctx.isValueCatch c.vType = true
    · have hn : v.isOfType R c.vType = false := not_isOfType_valueCatch hval hc
      rw [pick_value ha hc, if_neg (by simp [hval])]
      simp only [hn, hval, Bool.false_eq_true, false_and, or_false, false_or, ctx.isHaxeException_valueCatch hc, true_and]
      rw [← ifAccepts_valueCatch hc]
      cases hi : ifAccepts ctx R v c with
      | true =>
        have hnone : valueCatch = none := by
          by_contra hne
          obtain ⟨d, rfl⟩ := Option.ne_none_iff_exists'.1 hne
          obtain ⟨hdv, hdi⟩ := hdead d rfl
          rw [ifAccepts_congr hdv hc, hi] at hdi
          cases hdi
        rw [hnone, Option.getD_none, pick_pending ha hval hi post [] hpost]
        simp
      | false =>
        simp only [Bool.false_eq_true, false_and, iff_false]
        intro h
        rcases pick_mem ha post _ _ h with h | ⟨_, h⟩ | ⟨h, _⟩
        · exact hpost h
        · rw [hi] at h
          cases h
        · rw [hval] at h
          cases h
    · rw [Bool.not_eq_true] at hc
      rw [pick_native ha hw hc]
      cases hn : v.isOfType R c.vType with
      | true => simp
      | false =>
        have hcaught : ¬ (c.vType.isHaxeException = true ∧ (v.caught R).isOfType R c.vType = true ∧
            (∀ x ∈ front ctx post, v.isOfType R x.vType = false) ∧
            ((post.any fun x => ctx.isHaxeWildcardCatch x.vType) = true →
              ∀ x ∈ lastSegment ctx (front ctx post), x.vType.isHaxeException = true)) := by
          rintro ⟨hx, h, _⟩
          rw [valueCatch_of_caught hx hw hn h] at hc
          cases hc
        rw [if_neg (by simp)]
        simp only [hcaught, hval, Bool.false_eq_true, false_and, or_false, iff_false]
        intro h
        rcases pick_mem ha post _ _ h with h | ⟨h, hi⟩ | ⟨h, _⟩
        · exact hpost h
        · rw [(hdead c h).2] at hi
          cases hi
        · rw [hval] at h
          cases h

theorem pick_first_value (ha : ctx.catchesAnything = true) (hval : v.isValueException = true)
    (hpre : ∀ x ∈ pre, accepts ctx R v x = false) (hc : accepts ctx R v c = true) (hpost : c ∉ post) :
    pick ctx R v [] none (pre ++ c :: post) = some c ↔ ReachedAnything ctx R v pre c post := by
  obtain ⟨handle, hf, hnil, hpass⟩ := pick_waits ha hval pre [] hpre rfl
  have hcaught : v.caught R = v := by
    cases v with
    | valueException => rfl
    | plain | exception => cases hval
  rw [hpass, ReachedAnything]
  by_cases hw : ctx.isHaxeWildcardCatch c.vType = true
  · rw [pick_wildcard hw, if_pos hw]
    by_cases hh : handle = []
    · rw [if_pos hh]
      simp only [Option.toList_none, List.nil_append, List.find?_cons_of_pos (ifAccepts_wildcard hw), true_iff]
      exact fun _ => (hnil.1 hh).2
    · have hpre' : ¬ ∀ x ∈ pre, x.vType.isHaxeException = true := fun h => hh (hnil.2 ⟨rfl, h⟩)
      rw [if_neg hh, if_pos hval, hf]
      simp only [hval, forall_const, hpre', iff_false]
      exact fun h => nomatch h
  · rw [if_neg hw]
    rw [Bool.not_eq_true] at hw
    by_cases hx : ctx.isValueCatch c.vType = true
    · rw [pick_value ha hx, if_pos hval, hf, Option.getD_none]
      simp [isOfType_valueCatch hx, hval]
    · rw [Bool.not_eq_true] at hx
      rw [pick_native ha hw hx]
      cases hn : v.isOfType R c.vType with
      | true => simp
      | false =>
        rw [if_neg (by simp)]
        simp only [hcaught, hn, hval, Bool.false_eq_true, false_and, and_false, false_or, true_and]
        cases he : c.vType.isHaxeException with
        | true =>
          simp only [if_true, Bool.true_eq_false, false_and, iff_false]
          intro h
          rcases pick_mem ha post _ _ h with h | ⟨h, _⟩ | ⟨_, h⟩
          · exact hpost h
          · cases h
          · rw [hf] at h
            cases h
        | false =>
          have ho : originallyOf ctx R v c = true := by
            simpa [accepts, hw, hn, he] using hc
          simp only [Bool.false_eq_true, if_false, true_and]
          exact pick_waiting ha hval post (c :: handle) (List.find?_cons_of_pos ho) hpost

/-! ## On a target that does not catch anything -/

theorem pick_leading (ha : ctx.catchesAnything = false) (hl : Leading ctx c) (rest : List Catch) :
    pick ctx R v [] none (c :: rest) = if v.isOfType R c.vType then some c else pick ctx R v [] none rest := by
  rw [pick, if_neg (by simp [hl.2]), if_neg (by simp [ha]), if_pos hl.1]
  simp [ha]

theorem pick_not_leading (ha : ctx.catchesAnything = false) (hl : ¬ Leading ctx c) (rest : List Catch) :
    pick ctx R v [] none (c :: rest) = (c :: rest).find? (ifAccepts ctx R v) := by
  rw [pick]
  by_cases hw : ctx.isHaxeWildcardCatch c.vType = true
  · rw [if_pos hw, if_pos rfl]
    rfl
  · have hn : ¬ ctx.isNativeCatch c.vType = true := fun h => hl ⟨h, by simpa using hw⟩
    rw [if_neg hw, if_neg (by simp [ha]), if_neg hn]
    rfl

theorem pick_native_mem (ha : ctx.catchesAnything = false) {d : Catch} :
    ∀ catches : List Catch, pick ctx R v [] none catches = some d → d ∈ catches
  | [], h => by simp [pick] at h
  | x :: rest, h => by
    by_cases hl : Leading ctx x
    · rw [pick_leading ha hl] at h
      split_ifs at h
      · cases h
        exact List.mem_cons_self ..
      · exact List.mem_cons_of_mem _ (pick_native_mem ha rest h)
    · rw [pick_not_leading ha hl] at h
      exact List.mem_of_find?_eq_some h

theorem not_ifAccepts {x : Catch} (hv : v.isOfType R ctx.wildcardCatchType = true) (h : accepts ctx R v x = false) :
    ifAccepts ctx R v x = false := by
  by_contra hi
  rw [accepts_of_ifAccepts hv (by simpa using hi)] at h
  cases h

theorem pick_first_native (ha : ctx.catchesAnything = false) (hv : v.isOfType R ctx.wildcardCatchType = true)
    (hpost : c ∉ post) : ∀ pre : List Catch, (∀ x ∈ pre, accepts ctx R v x = false) →
      (pick ctx R v [] none (pre ++ c :: post) = some c ↔ ReachedNative ctx R v pre c)
  | [], hpre => by
    rw [List.nil_append, ReachedNative, List.nil_append, List.forall_mem_singleton]
    simp only [List.mem_singleton, exists_eq_left]
    by_cases hl : Leading ctx c
    · rw [pick_leading ha hl]
      simp only [hl, not_true_eq_false, forall_const, false_implies, and_true]
      split_ifs with ht
      · simp [ht]
      · exact iff_of_false (fun h => hpost (pick_native_mem ha post h)) ht
    · rw [pick_not_leading ha hl]
      simp only [hl, not_false_eq_true, forall_const, false_implies, true_and]
      exact find?_split (List.forall_mem_nil _) hpost
  | x :: pre, hpre => by
    obtain ⟨hx, hpre'⟩ := List.forall_mem_cons.1 hpre
    by_cases hl : Leading ctx x
    · have hstep : ReachedNative ctx R v (x :: pre) c ↔ ReachedNative ctx R v pre c := by
        unfold ReachedNative
        simp only [List.cons_append, List.forall_mem_cons, List.exists_mem_cons_iff, hl, true_and, not_true_eq_false, false_or]
      rw [List.cons_append, pick_leading ha hl, if_neg (by simp [(not_accepts hx).2.1]), hstep]
      exact pick_first_native ha hv hpost pre hpre'
    · have hex : ∃ y ∈ (x :: pre) ++ [c], ¬ Leading ctx y := ⟨x, List.mem_cons_self .., hl⟩
      have hall : ¬ ∀ y ∈ (x :: pre) ++ [c], Leading ctx y := fun h => hl (h x (List.mem_cons_self ..))
      rw [List.cons_append, pick_not_leading ha hl, ReachedNative, ← List.cons_append]
      simp only [hex, hall, false_implies, forall_const, true_and]
      exact find?_split (fun y hy => not_ifAccepts hv (hpre y hy)) hpost

theorem pick_first (hv : v.isOfType R ctx.wildcardCatchType = true)
    (hpre : ∀ x ∈ pre, accepts ctx R v x = false) (hc : accepts ctx R v c = true) (hpost : c ∉ post) :
    pick ctx R v [] none (pre ++ c :: post) = some c ↔ Reached ctx R v pre c post := by
  unfold Reached
  split_ifs with ha
  · cases hval : v.isValueException with
    | true => exact pick_first_value ha hval hpre hc hpost
    | false => exact pick_first_other ha hv hval hpre hpost
  · exact pick_first_native (by simpa using ha) hv hpost pre hpre

/-- What no catch accepts is thrown again. -/
theorem pick_none (hv : v.isOfType R ctx.wildcardCatchType = true) :
    ∀ catches : List Catch, (∀ x ∈ catches, accepts ctx R v x = false) → pick ctx R v [] none catches = none := by
  intro catches hall
  cases ha : ctx.catchesAnything with
  | true =>
    cases hval : v.isValueException with
    | true =>
      obtain ⟨handle, hf, _, hpass⟩ := pick_waits ha hval catches [] hall rfl
      rw [← List.append_nil catches, hpass, pick]
      split_ifs
      · exact hf
      · rfl
    | false =>
      obtain ⟨handle, valueCatch, hdead, hpass⟩ := pick_passes ha hval catches [] none hall (by simp) hv
      rw [← List.append_nil catches, hpass, pick, if_neg (by simp [hval])]
      simpa using fun d hd => (hdead d hd).2
  | false =>
    induction catches with
    | nil => simp [pick]
    | cons x rest ih =>
      obtain ⟨hx, hrest⟩ := List.forall_mem_cons.1 hall
      by_cases hl : Leading ctx x
      · rw [pick_leading ha hl, if_neg (by simp [(not_accepts hx).2.1])]
        exact ih hrest
      · rw [pick_not_leading ha hl]
        exact List.find?_eq_none.2 fun y hy => by simp [not_ifAccepts hv (hall y hy)]

end First

/-- An outcome tells which catch ran. -/
theorem picks_inj {a b : Option Catch} {out : Outcome ctx.H α} (ha : Picks ctx R v a out) (hb : Picks ctx R v b out) :
    a = b := by
  cases a with
  | none =>
    cases b with
    | none => rfl
    | some d =>
      obtain ⟨_, h, _⟩ := hb
      rw [Picks, h] at ha
      cases ha
  | some c =>
    obtain ⟨_, h, _⟩ := ha
    cases b with
    | none =>
      rw [Picks, h] at hb
      cases hb
    | some d =>
      obtain ⟨_, h', _⟩ := hb
      rw [h] at h'
      cases h'
      rfl

def haxeException : Class := .mk haxeExceptionTypePath none []

def haxeClasses : HaxeClasses where
  haxeExceptionClass := haxeException
  valueExceptionClass := .mk valueExceptionTypePath (some haxeException) []
  exception_path := rfl
  value_exception := rfl
  bases cls h _ := by
    simpa [haxeException, Class.instanceOf, Class.anyInstanceOf, Class.superInstanceOf, eq_comm] using h

/-- The configuration of targets such as Eval, Neko and HashLink. -/
def anythingContext : Context where
  H := haxeClasses
  nativeCatches := []
  wildcardCatchType := .tDynamic
  catchesAnything := true
  wildcard_native := .inl rfl
  anything_dynamic _ := rfl

def stringClass : Class := .mk ([], "String") none []

/-- A target with integers, which are no objects: `false` for an integer, `true` for a string. -/
def anythingTarget : Target Bool where
  isOfType a t := t.followWithAbstracts.isTDynamic || (a && (Ty.tInst stringClass).fastEq t.followWithAbstracts)
  nativeError _ := false
  not_haxe_exception a t ht := by
    unfold Ty.isHaxeException at ht
    cases hf : t.followWithAbstracts with
    | tInst cls =>
      rw [hf] at ht
      have hne : stringClass ≠ cls := by
        rintro rfl
        exact absurd ht (by decide)
      simp [Ty.isTDynamic, Ty.fastEq, hne]
    | tDynamic | tEnum | tAbstract | tOther => rw [hf] at ht; cases ht
  followed a t := by simp

/-- `throw new haxe.ValueException(5)`. -/
def thrownValue : Value anythingContext.H Bool :=
  .valueException haxeClasses.valueExceptionClass haxeClasses.value_instanceOf_exception (Class.instanceOf_self _)
    (.plain false) none

/-- `catch(s:String)` and `catch(e:Dynamic)`. -/
def stringThenDynamic : List Catch := [⟨0, .tInst stringClass, true, 0⟩, ⟨1, .tDynamic, true, 1⟩]

end EvilHaxe.Exceptions
