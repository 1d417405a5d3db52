/-
What adding constraints does to the lists of monomorphs. `add_down_constraint` gives the other monomorph the up list of
`m`, with one constraint more, in place of its own, so what that had is kept only where `m` has it as well.
-/
import EvilHaxe.Unify.Tracking

namespace EvilHaxe.Unify

variable {C : Context} {D : Typedefs} {h h' : Heap} {m k : Nat}

/-- Adding `m` below `m2` loses no up constraint of `m2`. -/
def KeepsUp (h : Heap) (m m2 : Nat) : Prop := h.type m2 = none → ∀ e ∈ h.up m2, e ∈ h.up m

theorem addUpConstraint_grows (h : Heap) (m : Nat) (e : Ty × Option String) : Grows h (addUpConstraint h m e) where
  type x := by
    unfold addUpConstraint
    split <;> simp
  down x _ c hc := by
    unfold addUpConstraint
    split <;> simp only [Heap.down_setDown, Heap.down_setUp] <;> grind
  up x _ c hc := by
    unfold addUpConstraint
    split <;> simp only [Heap.up_setDown, Heap.up_setUp] <;> grind

theorem mem_addUpConstraint (h : Heap) (m : Nat) (e : Ty × Option String) : e ∈ (addUpConstraint h m e).up m := by
  unfold addUpConstraint
  split <;> simp

theorem mem_addUpConstraint_mono (h : Heap) (m m2 : Nat) (name : Option String) :
    .mMono m name ∈ (addUpConstraint h m (.tMono m2, name)).down m2 := by
  simp [addUpConstraint]

theorem addDownConstraint_type (h : Heap) (m : Nat) (c : Constraint) (x : Nat) : (addDownConstraint h m c).type x = h.type x := by
  unfold addDownConstraint
  split <;> simp

theorem addDownConstraint_down (h : Heap) (m : Nat) (c : Constraint) (x : Nat) :
    (addDownConstraint h m c).down x = if x = m then c :: h.down m else h.down x := by
  unfold addDownConstraint
  split <;> simp

theorem addDownConstraint_up (h : Heap) (m : Nat) (c : Constraint) (x : Nat) :
    (addDownConstraint h m c).up x = h.up x ∨
      ∃ name, c = .mMono x name ∧ (addDownConstraint h m c).up x = (.tMono m, name) :: h.up m := by
  unfold addDownConstraint
  split
  · rename_i m2 s
    by_cases hx : x = m2
    · subst hx
      exact .inr ⟨s, rfl, by simp⟩
    · exact .inl (by simp [hx])
  · exact .inl (by simp)

theorem addDownConstraint_grows {c : Constraint} (hc : ∀ m2 name, c = .mMono m2 name → KeepsUp h m m2) :
    Grows h (addDownConstraint h m c) where
  type := addDownConstraint_type h m c
  down x _ c' hc' := by
    rw [addDownConstraint_down]
    split
    · rename_i hx
      subst hx
      exact List.mem_cons_of_mem _ hc'
    · exact hc'
  up x hx e he := by
    rcases addDownConstraint_up h m c x with heq | ⟨name, rfl, heq⟩
    · rw [heq]
      exact he
    · rw [heq]
      exact List.mem_cons_of_mem _ (hc x name rfl hx e he)

theorem mem_addDownConstraint (h : Heap) (m : Nat) (c : Constraint) : c ∈ (addDownConstraint h m c).down m := by
  rw [addDownConstraint_down, if_pos rfl]
  exact List.mem_cons_self

theorem mem_addDownConstraint_mono (h : Heap) (m m2 : Nat) (name : Option String) :
    (.tMono m, name) ∈ (addDownConstraint h m (.mMono m2 name)).up m2 := by
  simp [addDownConstraint]

/-- Constraints that name no monomorph. -/
theorem foldl_addDownConstraint : ∀ {l : List Constraint} {h : Heap}, (∀ c ∈ l, ∀ x name, c ≠ .mMono x name) →
    Grows h (l.foldl (fun h c => addDownConstraint h m c) h) ∧
      (h.type m = none → ∀ c ∈ l, c ∈ (l.foldl (fun h c => addDownConstraint h m c) h).down m)
  | [], h, _ => ⟨.refl h, fun _ _ hc => nomatch hc⟩
  | c :: l, h, hl => by
    obtain ⟨hg, hmem⟩ := foldl_addDownConstraint (l := l) (h := addDownConstraint h m c) fun c' hc' => hl c' (.tail _ hc')
    refine ⟨(addDownConstraint_grows fun x name heq => absurd heq (hl c (.head _) x name)).trans hg, fun hm c' hc' => ?_⟩
    rw [List.foldl_cons]
    have hm' : (addDownConstraint h m c).type m = none := by rw [addDownConstraint_type, hm]
    rcases List.mem_cons.1 hc' with rfl | hc'
    · exact hg.down m hm' _ (mem_addDownConstraint h m _)
    · exact hmem hm' c' hc'

/-! ## Binding a monomorph to another -/

/-- Binding `m` to `k` loses no up constraint of the monomorphs that `m` is below, but those from `m`. -/
def CopiesUp (h : Heap) (m k : Nat) : Prop :=
  ∀ x name, .mMono x name ∈ h.down m → h.type x = none → ∀ e ∈ h.up x, e.1 ≠ .tMono m → e ∈ h.up k

/-- While constraints of `m` are given to `k`: what of the state `h` at the beginning is kept. -/
structure Copying (h hi : Heap) (m k : Nat) : Prop where
  type : ∀ x, hi.type x = h.type x
  down : ∀ x, ∀ c ∈ h.down x, c ∈ hi.down x
  target : ∀ e ∈ h.up k, e ∈ hi.up k
  up : ∀ x, h.type x = none → ∀ e ∈ h.up x, e.1 ≠ .tMono m → e ∈ hi.up x

theorem Copying.refl (h : Heap) (m k : Nat) : Copying h h m k :=
  ⟨fun _ => rfl, fun _ _ hc => hc, fun _ he => he, fun _ _ _ he _ => he⟩

theorem Copying.addDown {hi : Heap} {c : Constraint} (hcopy : Copying h hi m k) (hc : c ∈ h.down m) (hup : CopiesUp h m k) :
    Copying h (addDownConstraint hi k c) m k where
  type x := by rw [addDownConstraint_type, hcopy.type]
  down x c' hc' := by
    rw [addDownConstraint_down]
    split
    · rename_i hx
      subst hx
      exact List.mem_cons_of_mem _ (hcopy.down x c' hc')
    · exact hcopy.down x c' hc'
  target e he := by
    rcases addDownConstraint_up hi k c k with heq | ⟨name, rfl, heq⟩
    · rw [heq]
      exact hcopy.target e he
    · rw [heq]
      exact List.mem_cons_of_mem _ (hcopy.target e he)
  up x hx e he hne := by
    rcases addDownConstraint_up hi k c x with heq | ⟨name, rfl, heq⟩
    · rw [heq]
      exact hcopy.up x hx e he hne
    · rw [heq]
      exact List.mem_cons_of_mem _ (hcopy.target e (hup x name hc hx e he hne))

/-- `k` is among the up constraints of `x`. -/
def UpFrom (h : Heap) (k x : Nat) : Prop := ∃ name, (.tMono k, name) ∈ h.up x

theorem UpFrom.addDown {x : Nat} (hu : UpFrom h k x) (c : Constraint) : UpFrom (addDownConstraint h k c) k x := by
  rcases addDownConstraint_up h k c x with heq | ⟨name, rfl, heq⟩
  · rw [UpFrom, heq]
    exact hu
  · exact ⟨name, heq ▸ List.mem_cons_self⟩

theorem foldl_copyDown (hup : CopiesUp h m k) : ∀ {l : List Constraint} {hi : Heap}, (∀ c ∈ l, c ∈ h.down m) → Copying h hi m k →
    Copying h (l.foldl (fun h c => addDownConstraint h k c) hi) m k ∧
      (∀ c, c ∈ hi.down k ∨ c ∈ l → c ∈ (l.foldl (fun h c => addDownConstraint h k c) hi).down k) ∧
      ∀ x, UpFrom hi k x ∨ (∃ name, .mMono x name ∈ l) → UpFrom (l.foldl (fun h c => addDownConstraint h k c) hi) k x
  | [], hi, _, hcopy => ⟨hcopy, (fun _ hc => hc.resolve_right nofun), fun _ hx => hx.resolve_right nofun⟩
  | c :: l, hi, hl, hcopy => by
    obtain ⟨h1, h2, h3⟩ := foldl_copyDown hup (l := l) (fun c' hc' => hl c' (.tail _ hc')) (hcopy.addDown (hl c (.head _)) hup)
    refine ⟨h1, fun c' hc' => h2 c' ?_, fun x hx => h3 x ?_⟩
    · rw [addDownConstraint_down, if_pos rfl]
      grind
    · rcases hx with hu | ⟨name, hmem⟩
      · exact .inl (hu.addDown c)
      · rcases List.mem_cons.1 hmem with rfl | hmem
        · exact .inl ⟨name, mem_addDownConstraint_mono hi k x name⟩
        · exact .inr ⟨name, hmem⟩

/-- What only adds to the lists, of bound monomorphs as well. -/
structure Adds (h h' : Heap) : Prop where
  type : ∀ x, h'.type x = h.type x
  down : ∀ x, ∀ c ∈ h.down x, c ∈ h'.down x
  up : ∀ x, ∀ e ∈ h.up x, e ∈ h'.up x

theorem addUpConstraint_adds (h : Heap) (k : Nat) (e : Ty × Option String) : Adds h (addUpConstraint h k e) where
  type := (addUpConstraint_grows h k e).type
  down x c hc := by
    unfold addUpConstraint
    split <;> simp only [Heap.down_setDown, Heap.down_setUp] <;> grind
  up x c hc := by
    unfold addUpConstraint
    split <;> simp only [Heap.up_setDown, Heap.up_setUp] <;> grind

theorem foldl_copyUp : ∀ (l : List (Ty × Option String)) (h : Heap),
    Adds h (l.foldl (fun h e => addUpConstraint h k e) h) ∧
      (∀ e ∈ l, e ∈ (l.foldl (fun h e => addUpConstraint h k e) h).up k) ∧
      ∀ y name, (.tMono y, name) ∈ l → .mMono k name ∈ (l.foldl (fun h e => addUpConstraint h k e) h).down y
  | [], h => ⟨⟨fun _ => rfl, fun _ _ hc => hc, fun _ _ he => he⟩, (fun _ he => nomatch he), nofun⟩
  | e :: l, h => by
    obtain ⟨hadds, hup, hback⟩ := foldl_copyUp l (addUpConstraint h k e)
    have hfirst := addUpConstraint_adds h k e
    refine ⟨⟨fun x => (hadds.type x).trans (hfirst.type x), fun x c hc => hadds.down x c (hfirst.down x c hc),
      fun x c hc => hadds.up x c (hfirst.up x c hc)⟩, fun e' he' => ?_, fun y name hy => ?_⟩
    · rcases List.mem_cons.1 he' with rfl | he'
      · exact hadds.up k _ (mem_addUpConstraint h k _)
      · exact hup e' he'
    · rcases List.mem_cons.1 hy with rfl | hy
      · exact hadds.down y _ (mem_addUpConstraint_mono h k y name)
      · exact hback y name hy

theorem bindMono_joins (hm : h.type m = none) (hk : h.type k = none) (hne : k ≠ m) (hup : CopiesUp h m k) :
    Joins h (bindMono h m k) m k := by
  obtain ⟨hcopy, hdown, hfrom⟩ := foldl_copyDown hup (fun c hc => hc) (.refl h m k)
  generalize h1def : (h.down m).foldl (fun h c => addDownConstraint h k c) h = h1 at hcopy hdown hfrom
  obtain ⟨hadds, hcopied, hback⟩ := foldl_copyUp (k := k) (h1.up m) h1
  generalize h2def : (h1.up m).foldl (fun h e => addUpConstraint h k e) h1 = h2 at hadds hcopied hback
  have hbind : bindMono h m k = doBind h2 m (.tMono k) := by
    simp only [bindMono, h1def, h2def]
  rw [hbind]
  have hkept : ∀ e ∈ h.up m, e.1 ≠ .tMono m → e ∈ h1.up m := hcopy.up m hm
  refine ⟨hm, hk, hne, fun x => ?_, fun x hx c hc => ?_, fun x hx hun e he hem => ?_, fun c hc => ?_, fun e he hem => ?_,
    fun x name hx hxm => ?_, fun y name hy hym => ?_⟩
  · simp [doBind, hadds.type, hcopy.type]
  · simpa [doBind, hx] using hadds.down x c (hcopy.down x c hc)
  · simpa [doBind, hx] using hadds.up x e (hcopy.up x hun e he hem)
  · simpa [doBind, hne] using hadds.down k c (hdown c (.inr hc))
  · simpa [doBind, hne] using hcopied e (hkept e he hem)
  · obtain ⟨name', hmem⟩ := hfrom x (.inr ⟨name, hx⟩)
    exact ⟨name', by simpa [doBind, hxm] using hadds.up x _ hmem⟩
  · exact ⟨name, by simpa [doBind, hym] using hback y name (hkept _ hy (by simpa using hym))⟩

end EvilHaxe.Unify
