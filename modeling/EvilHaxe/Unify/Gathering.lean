/-
Where types lead under the bindings of monomorphs: the steps of `follow`, the monomorph at which a chain of bound
monomorphs ends, and what of this further bindings keep.
-/
import EvilHaxe.Unify.Monomorph

namespace EvilHaxe.Unify

open Relation (ReflTransGen)

variable {D : Typedefs} {h h' : Heap} {m r x : Nat} {t t' c : Ty}

/-! ## Following -/

/-- `follow` goes from `t` through `t'`. -/
abbrev Leads (D : Typedefs) (h : Heap) : Ty → Ty → Prop := ReflTransGen fun t t' => followOnce D h t = some t'

/-- `follow t` is `c`. -/
def Settles (D : Typedefs) (h : Heap) (t c : Ty) : Prop := Leads D h t c ∧ followOnce D h c = none

theorem follow_settles : ∀ {n : Nat} {t : Ty}, follow D n h t = some c → Settles D h t c
  | 0, _, hf => nomatch hf
  | n + 1, t, hf => by
    unfold follow at hf
    split at hf
    · rename_i t' ht
      obtain ⟨hl, hc⟩ := follow_settles hf
      exact ⟨.head ht hl, hc⟩
    · rename_i ht
      obtain rfl := Option.some.inj hf
      exact ⟨.refl, ht⟩

theorem Leads.mono (hm : h.type m = some t) : Leads D h (.tMono m) t := .single hm

theorem Leads.linear (hl : Leads D h t t') (hs : Settles D h t c) : Settles D h t' c := by
  induction hl with
  | refl => exact hs
  | tail _ hstep ih =>
    refine ⟨?_, hs.2⟩
    rcases ih.1.cases_head with rfl | ⟨u, hu, hl⟩
    · exact nomatch hstep.symm.trans ih.2
    · obtain rfl := Option.some.inj (hstep.symm.trans hu)
      exact hl

theorem Settles.unique {c' : Ty} (h1 : Settles D h t c) (h2 : Settles D h t c') : c = c' := by
  obtain ⟨hl, hc'⟩ := h1.1.linear h2
  rcases hl.cases_head with rfl | ⟨u, hu, _⟩
  · rfl
  · exact nomatch hu.symm.trans h1.2

/-- `t` stands for a type that is not an unbound monomorph. -/
def Solid (D : Typedefs) (h : Heap) (t : Ty) : Prop := ∃ c, Settles D h t c ∧ ∀ r, c ≠ .tMono r

theorem Leads.solid (hl : Leads D h t t') (hs : Solid D h t) : Solid D h t' := by
  obtain ⟨c, hc, hr⟩ := hs
  exact ⟨c, hl.linear hc, hr⟩

theorem Leads.solid_back (hl : Leads D h t t') (hs : Solid D h t') : Solid D h t := by
  obtain ⟨c, hc, hr⟩ := hs
  exact ⟨c, ⟨hl.trans hc.1, hc.2⟩, hr⟩

theorem Solid.follow {n : Nat} (hs : Solid D h t) (hf : follow D n h t = some c) (r : Nat) : c ≠ .tMono r := by
  obtain ⟨c', hc', hr⟩ := hs
  rw [(follow_settles hf).unique hc']
  exact hr r

theorem not_solid_unbound (hm : h.type m = none) : ¬ Solid D h (.tMono m) := by
  rintro ⟨c, hc, hr⟩
  exact hr m (hc.unique ⟨.refl, hm⟩)

/-! ## Further bindings -/

/-- What is bound in `h` is bound to the same type in `h'`. -/
def Extends (h h' : Heap) : Prop := ∀ m t, h.type m = some t → h'.type m = some t

theorem Extends.refl (h : Heap) : Extends h h := fun _ _ ht => ht

theorem Extends.trans {h'' : Heap} (h1 : Extends h h') (h2 : Extends h' h'') : Extends h h'' :=
  fun m t ht => h2 m t (h1 m t ht)

theorem Extends.of_eq (he : ∀ m, h'.type m = h.type m) : Extends h h' := fun m t ht => by rw [he, ht]

theorem Extends.setType (hm : h.type m = none) (t : Ty) : Extends h (h.setType m (some t)) := by
  intro x t' hx
  have : x ≠ m := by
    rintro rfl
    exact nomatch hm.symm.trans hx
  simp [this, hx]

theorem followOnce_extends (he : Extends h h') (hf : followOnce D h t = some t') : followOnce D h' t = some t' := by
  cases t with
  | tMono r => exact he r t' hf
  | tAbstract a tl =>
    unfold followOnce at hf ⊢
    split at hf <;> simp_all
  | _ => exact hf

theorem followOnce_none_extends (hc : ∀ r, c ≠ .tMono r) (hf : followOnce D h c = none) : followOnce D h' c = none := by
  cases c with
  | tMono r => exact absurd rfl (hc r)
  | tAbstract a tl =>
    unfold followOnce at hf ⊢
    split at hf <;> simp_all
  | _ => exact hf

theorem Leads.extends (hl : Leads D h t t') (he : Extends h h') : Leads D h' t t' :=
  Relation.ReflTransGen.mono (fun _ _ hs => followOnce_extends he hs) _ _ hl

theorem Solid.extends (hs : Solid D h t) (he : Extends h h') : Solid D h' t := by
  obtain ⟨c, ⟨hl, hc⟩, hr⟩ := hs
  exact ⟨c, ⟨hl.extends he, followOnce_none_extends hr hc⟩, hr⟩

/-! ## Chains of monomorphs -/

/-- The chain of monomorphs that `m` is bound to ends at `r`: unbound, or bound to another type than a monomorph. -/
inductive Root (h : Heap) : Nat → Nat → Prop where
  | here {m : Nat} : (∀ x, h.type m ≠ some (.tMono x)) → Root h m m
  | step {m x r : Nat} : h.type m = some (.tMono x) → Root h x r → Root h m r

theorem Root.unbound (hm : h.type m = none) : Root h m m := .here fun _ hx => nomatch hm.symm.trans hx

theorem Root.end (hr : Root h m r) : ∀ x, h.type r ≠ some (.tMono x) := by
  induction hr with
  | here hm => exact hm
  | step _ _ ih => exact ih

theorem Root.unique {r' : Nat} (h1 : Root h m r) (h2 : Root h m r') : r = r' := by
  induction h1 with
  | here hm =>
    cases h2 with
    | here _ => rfl
    | step hx _ => exact absurd hx (hm _)
  | step hx _ ih =>
    cases h2 with
    | here hm => exact absurd hx (hm _)
    | step hx' hr =>
      obtain ⟨⟩ := hx.symm.trans hx'
      exact ih hr

theorem Root.leads (hr : Root h m r) : Leads D h (.tMono m) (.tMono r) := by
  induction hr with
  | here _ => exact .refl
  | step hx _ ih => exact .head hx ih

theorem Root.extends (hr : Root h m r) (he : Extends h h') (hend : ∀ x, h'.type r ≠ some (.tMono x)) : Root h' m r := by
  induction hr with
  | here _ => exact .here hend
  | step hx _ ih => exact .step (he _ _ hx) (ih hend)

/-- The end of the chain is bound to a monomorph. -/
theorem Root.extends_step {k k' : Nat} (hr : Root h m r) (he : Extends h h') (hk : h'.type r = some (.tMono k))
    (hk' : Root h' k k') : Root h' m k' := by
  induction hr with
  | here _ => exact .step hk hk'
  | step hx _ ih => exact .step (he _ _ hx) (ih hk)

theorem Root.congr (hr : Root h m r) (he : ∀ m, h'.type m = h.type m) : Root h' m r :=
  hr.extends (.of_eq he) fun x => by
    rw [he]
    exact hr.end x

/-- A chain that ends in a type has a root, which is bound to it. -/
theorem Solid.root (hs : Solid D h (.tMono m)) : ∃ r t, Root h m r ∧ h.type r = some t ∧ Solid D h t := by
  obtain ⟨c, ⟨hl, hc⟩, hr⟩ := hs
  generalize hu : Ty.tMono m = u at hl
  induction hl using ReflTransGen.head_induction_on generalizing m with
  | refl => exact absurd hu.symm (hr m)
  | head hstep hl ih =>
    rename_i t t'
    subst hu
    have hm : h.type m = some t' := hstep
    by_cases hmono : ∃ x, t' = .tMono x
    · obtain ⟨x, rfl⟩ := hmono
      obtain ⟨r, t, hroot, hty, hsol⟩ := ih rfl
      exact ⟨r, t, .step hm hroot, hty, hsol⟩
    · refine ⟨m, t', .here fun x hx => hmono ⟨x, ?_⟩, hm, c, ⟨hl, hc⟩, hr⟩
      exact Option.some.inj (hm.symm.trans hx)

end EvilHaxe.Unify

/-! What reading the constraints of a monomorph finds: the types `classify_down_constraints` gives to unify with cover the
constraints it meets, unless two fields of one name meet; and `collect_up_constraints` finds the types among the up
constraints, and those of bound monomorphs. -/

namespace EvilHaxe.Unify

variable {D : Typedefs} {h : Heap} {m : Nat}

/-! ## Folds that may not return -/

/-- A fold whose steps go up in a preorder goes up, and past each element it has gone one step. -/
theorem foldlM_climbs {α β : Type} {f : β → α → Option β} {R : β → β → Prop} (refl : ∀ b, R b b)
    (trans : ∀ {a b c}, R a b → R b c → R a c) :
    ∀ {l : List α} {b b' : β}, (∀ a ∈ l, ∀ b b', f b a = some b' → R b b') → l.foldlM f b = some b' →
      R b b' ∧ ∀ a ∈ l, ∃ b1 b2, f b1 a = some b2 ∧ R b b1 ∧ R b2 b'
  | [], b, b', _, hl => by
    obtain rfl := Option.some.inj hl
    exact ⟨refl b, fun _ ha => nomatch ha⟩
  | a :: l, b, b', hf, hl => by
    rw [List.foldlM_cons] at hl
    obtain ⟨b1, hb1, hl⟩ := Option.bind_eq_some_iff.1 hl
    obtain ⟨hle, hmem⟩ := foldlM_climbs refl trans (fun a ha => hf a (.tail _ ha)) hl
    have hstep := hf a (.head _) b b1 hb1
    refine ⟨trans hstep hle, fun a' ha' => ?_⟩
    rcases List.mem_cons.1 ha' with rfl | ha'
    · exact ⟨b, b1, hb1, refl b, hle⟩
    · obtain ⟨c1, c2, hc, h1, h2⟩ := hmem a' ha'
      exact ⟨c1, c2, hc, trans hstep h1, h2⟩

/-! ## Down constraints -/

/-- Checking a constraint meets another, through monomorphs. -/
inductive Meets (D : Typedefs) (h : Heap) : Constraint → Constraint → Prop where
  | here {c : Constraint} : (∀ m name, c ≠ .mMono m name) → Meets D h c c
  | bound {m n : Nat} {name : Option String} {t : Ty} {l : List Constraint} {c c' : Constraint} : h.type m = some t →
      constraintOfType D n h name t = some l → c ∈ l → Meets D h c c' → Meets D h (.mMono m name) c'
  | unbound {m : Nat} {name : Option String} {c c' : Constraint} : h.type m = none → c ∈ h.down m → Meets D h c c' →
      Meets D h (.mMono m name) c'

/-- No two fields of one name but different types meet on `m`. -/
def FieldsAgree (D : Typedefs) (h : Heap) (m : Nat) : Prop :=
  ∀ c1 ∈ h.down m, ∀ c2 ∈ h.down m, ∀ cf1 cf2, Meets D h c1 (.mField cf1) → Meets D h c2 (.mField cf2) →
    cf1.1 = cf2.1 → cf1 = cf2

/-- What is gathered has a constraint that names no monomorph. -/
def Gathered.Has (g : Gathered) : Constraint → Prop
  | .mMono _ _ => True
  | .mField cf => cf ∈ g.fields
  | .mType t name => (t, name) ∈ g.types
  | .mOpenStructure | .mEmptyStructure => g.isOpen = true

/-- The fields of `g'` are among `S`, if those of `g` are; and then `g'` has what `g` has. -/
def Gathered.Le (S : String × Ty → Prop) (g g' : Gathered) : Prop :=
  (∀ f ∈ g.fields, S f) → (∀ f ∈ g'.fields, S f) ∧ ∀ c, g.Has c → g'.Has c

theorem Gathered.Le.refl (S : String × Ty → Prop) (g : Gathered) : g.Le S g := fun hg => ⟨hg, fun _ hc => hc⟩

theorem Gathered.Le.of_empty {S : String × Ty → Prop} {g : Gathered} (hle : Gathered.empty.Le S g) : ∀ f ∈ g.fields, S f :=
  (hle fun _ hf => nomatch hf).1

theorem Gathered.Le.trans {S : String × Ty → Prop} {g1 g2 g3 : Gathered} (h1 : g1.Le S g2) (h2 : g2.Le S g3) : g1.Le S g3 := by
  intro hg
  obtain ⟨hg2, hle⟩ := h1 hg
  obtain ⟨hg3, hle'⟩ := h2 hg2
  exact ⟨hg3, fun c hc => hle' c (hle c hc)⟩

theorem Gathered.le_of_eq {S : String × Ty → Prop} {g g' : Gathered} (hf : g'.fields = g.fields)
    (ht : ∀ x ∈ g.types, x ∈ g'.types) (ho : g.isOpen = true → g'.isOpen = true) : g.Le S g' := by
  intro hg
  rw [hf]
  refine ⟨hg, fun c hc => ?_⟩
  cases c with
  | mMono => trivial
  | mField cf =>
    rw [Gathered.Has, hf]
    exact hc
  | mType t name => exact ht _ hc
  | _ => exact ho hc

theorem Gathered.le_addField {S : String × Ty → Prop} (hS : ∀ a b, S a → S b → a.1 = b.1 → a = b) {g : Gathered}
    {cf : String × Ty} (hcf : S cf) : g.Le S (g.addField cf) := by
  intro hg
  refine ⟨fun f hf => ?_, fun c hc => ?_⟩
  · rcases List.mem_cons.1 hf with rfl | hf
    · exact hcf
    · exact hg f (List.mem_filter.1 hf).1
  · cases c with
    | mField f =>
      by_cases hname : f.1 = cf.1
      · rw [hS f cf (hg f hc) hcf hname]
        exact List.mem_cons_self
      · exact List.mem_cons_of_mem _ (List.mem_filter.2 ⟨hc, by simpa using hname⟩)
    | _ => exact hc

/-- Checking a constraint keeps what is gathered; and it gathers the constraint, or what the type of a bound monomorph
stands for. -/
theorem check_spec {S : String × Ty → Prop} (hS : ∀ a b, S a → S b → a.1 = b.1 → a = b) :
    ∀ {n : Nat} {g g' : Gathered} {c : Constraint}, (∀ cf, Meets D h c (.mField cf) → S cf) → check D h n g c = some g' →
      g.Le S g' ∧ g'.Has c ∧ ∀ m2 name t, c = .mMono m2 name → h.type m2 = some t →
        ∃ k l, constraintOfType D k h name t = some l ∧ ((∀ f ∈ g.fields, S f) → ∀ c ∈ l, g'.Has c)
  | 0, _, _, _, _, hc => nomatch hc
  | n + 1, g, g', .mMono m2 name, hm, hc => by
    unfold check at hc
    split at hc
    · rename_i htype
      have hdown : ∀ c ∈ h.down m2, ∀ b b', check D h n b c = some b' → b.Le S b' := fun c hmem b b' hb =>
        (check_spec hS (fun cf hcf => hm cf (.unbound htype hmem hcf)) hb).1
      refine ⟨?_, trivial, fun m2' name' t heq ht => ?_⟩
      · obtain ⟨g2, hg2, hc⟩ := Option.bind_eq_some_iff.1 hc
        have hmonos : ∀ l, g.Le S { g with monos := l } := fun l => Gathered.le_of_eq rfl (fun _ hx => hx) id
        dsimp only at hc
        split at hc
        · obtain rfl := Option.some.inj hc
          exact hmonos _
        · exact (hmonos _).trans (foldlM_climbs (Gathered.Le.refl S) Gathered.Le.trans hdown hc).1
      · obtain ⟨rfl, rfl⟩ := Constraint.mMono.inj heq
        exact nomatch htype.symm.trans ht
    · rename_i t htype
      obtain ⟨l, hl, hc⟩ := Option.bind_eq_some_iff.1 hc
      have hspec : ∀ c ∈ l, ∀ b b', check D h n b c = some b' → b.Le S b' ∧ b'.Has c := fun c hmem b b' hb =>
        have hstep := check_spec hS (fun cf hcf => hm cf (.bound htype hl hmem hcf)) hb
        ⟨hstep.1, hstep.2.1⟩
      obtain ⟨hle, hmem⟩ := foldlM_climbs (Gathered.Le.refl S) Gathered.Le.trans (fun c hc b b' hb => (hspec c hc b b' hb).1) hc
      refine ⟨hle, trivial, fun m2' name' t' heq ht => ?_⟩
      obtain ⟨rfl, rfl⟩ := Constraint.mMono.inj heq
      obtain rfl := Option.some.inj (htype.symm.trans ht)
      refine ⟨n, l, hl, fun hg c hcl => ?_⟩
      obtain ⟨b1, b2, hb, h1, h2⟩ := hmem c hcl
      obtain ⟨hstep, hhas⟩ := hspec c hcl b1 b2 hb
      exact (h2 (hstep (h1 hg).1).1).2 c hhas
  | n + 1, g, g', .mField cf, hm, hc => by
    obtain rfl := Option.some.inj hc
    exact ⟨Gathered.le_addField hS (hm cf (.here fun _ _ => nofun)), List.mem_cons_self, fun _ _ _ heq => nomatch heq⟩
  | n + 1, g, g', .mType t name, hm, hc => by
    obtain rfl := Option.some.inj hc
    refine ⟨Gathered.le_of_eq rfl (fun _ hx => List.mem_append_left _ hx) id, ?_, fun _ _ _ heq => nomatch heq⟩
    exact List.mem_append_right _ List.mem_cons_self
  | n + 1, g, g', .mOpenStructure, hm, hc => by
    obtain rfl := Option.some.inj hc
    exact ⟨Gathered.le_of_eq rfl (fun _ hx => hx) fun _ => rfl, rfl, fun _ _ _ heq => nomatch heq⟩
  | n + 1, g, g', .mEmptyStructure, hm, hc => by
    obtain rfl := Option.some.inj hc
    exact ⟨Gathered.le_of_eq rfl (fun _ hx => hx) fun _ => rfl, rfl, fun _ _ _ heq => nomatch heq⟩

/-! ## Types to unify with -/

/-- The constraints say that a type is below `t`. -/
def Says (D : Typedefs) (h : Heap) (cs : List Constraint) (t : Ty) : Prop :=
  (∃ name, .mType t name ∈ cs) ∨
    ∃ fields, Leads D h t (.tAnon fields) ∧
      (fields = [] ∧ .mEmptyStructure ∈ cs ∨ fields ≠ [] ∧ ∀ cf ∈ fields, .mField cf ∈ cs)

theorem Says.mono {h' : Heap} {cs cs' : List Constraint} {t : Ty} (hs : Says D h cs t) (he : Extends h h')
    (hsub : ∀ c ∈ cs, (∀ x name, c ≠ .mMono x name) → c ∈ cs') : Says D h' cs' t := by
  rcases hs with ⟨name, hmem⟩ | ⟨fields, hl, hf⟩
  · exact .inl ⟨name, hsub _ hmem fun _ _ => nofun⟩
  · refine .inr ⟨fields, hl.extends he, hf.imp (fun hf => ⟨hf.1, hsub _ hf.2 fun _ _ => nofun⟩) fun hf => ⟨hf.1, ?_⟩⟩
    exact fun cf hcf => hsub _ (hf.2 cf hcf) fun _ _ => nofun

theorem mem_foldl_mField {c : Constraint} : ∀ {fields : List (String × Ty)} {acc : List Constraint},
    c ∈ fields.foldl (fun l cf => .mField cf :: l) acc ↔ c ∈ acc ∨ ∃ cf ∈ fields, c = .mField cf
  | [], acc => by simp
  | cf :: fields, acc => by
    rw [List.foldl_cons, mem_foldl_mField]
    simp only [List.mem_cons]
    grind

/-- A type is a constraint by what it leads to. -/
theorem constraintOfType_cases {n : Nat} {name : Option String} {t : Ty} {l : List Constraint}
    (hl : constraintOfType D n h name t = some l) :
    (∃ m2, l = [.mMono m2 name] ∧ Settles D h t (.tMono m2)) ∨ Solid D h t ∧ Says D h l t := by
  unfold constraintOfType at hl
  split at hl
  · exact nomatch hl
  · rename_i m2 hf
    exact .inl ⟨m2, (Option.some.inj hl).symm, follow_settles hf⟩
  · rename_i hf
    obtain rfl := Option.some.inj hl
    have hs := follow_settles hf
    exact .inr ⟨⟨_, hs, fun _ => nofun⟩, .inr ⟨[], hs.1, .inl ⟨rfl, List.mem_cons_self⟩⟩⟩
  · rename_i fields hne hf
    obtain rfl := Option.some.inj hl
    have hs := follow_settles hf
    refine .inr ⟨⟨_, hs, fun _ => nofun⟩, .inr ⟨fields, hs.1, .inr ⟨hne, fun cf hcf => ?_⟩⟩⟩
    exact mem_foldl_mField.2 (.inr ⟨cf, hcf, rfl⟩)
  · rename_i c hm _ _ hf
    obtain rfl := Option.some.inj hl
    exact .inr ⟨⟨c, follow_settles hf, hm⟩, .inl ⟨name, List.mem_cons_self⟩⟩

theorem constraintOfType_stated {n : Nat} {name : Option String} {t : Ty} {l : List Constraint}
    (hl : constraintOfType D n h name t = some l) (hs : Solid D h t) : Says D h l t := by
  rcases constraintOfType_cases hl with ⟨m2, rfl, hset⟩ | ⟨_, hstated⟩
  · obtain ⟨c, hc, hr⟩ := hs
    exact absurd (hc.unique hset) (hr m2)
  · exact hstated

/-- To be below all of `ts` is to be below `t`: it is one of them, or they have a structure with its fields. -/
def Covers (D : Typedefs) (h : Heap) (ts : List Ty) (t : Ty) : Prop :=
  t ∈ ts ∨ ∃ fields merged, Leads D h t (.tAnon fields) ∧ .tAnon merged ∈ ts ∧ ∀ cf ∈ fields, cf ∈ merged

theorem Covers.extends {h' : Heap} {ts : List Ty} {t : Ty} (hc : Covers D h ts t) (he : Extends h h') : Covers D h' ts t :=
  hc.imp id fun ⟨fields, merged, hl, hmem, hsub⟩ => ⟨fields, merged, hl.extends he, hmem, hsub⟩

theorem Gathered.type_mem_targets {g : Gathered} {t : Ty} {name : Option String} (ht : (t, name) ∈ g.types) :
    t ∈ g.kind.targets := by
  have hne : g.types.isEmpty = false := by
    cases hg : g.types with
    | nil => exact nomatch hg ▸ ht
    | cons => rfl
  have hmem : t ∈ g.types.map Prod.fst := List.mem_map.2 ⟨_, ht, rfl⟩
  unfold Gathered.kind
  simp only [hne]
  split <;> simp [ConstraintKind.targets, ConstraintKind.targetsAll, hmem]

theorem Gathered.fields_mem_targets {g : Gathered} (hg : g.fields ≠ [] ∨ g.isOpen = true) :
    .tAnon g.fields ∈ g.kind.targets := by
  have hcond : (!g.fields.isEmpty || g.isOpen) = true := by
    rcases hg with hg | hg
    · simp [hg]
    · simp [hg]
  unfold Gathered.kind
  simp only [hcond, if_true]
  split <;> simp [ConstraintKind.targets, ConstraintKind.targetsAll]

theorem Gathered.covers {g : Gathered} {cs : List Constraint} {t : Ty} (hs : Says D h cs t) (hg : ∀ c ∈ cs, g.Has c) :
    Covers D h g.kind.targets t := by
  rcases hs with ⟨name, hmem⟩ | ⟨fields, hl, ⟨rfl, hmem⟩ | ⟨hne, hmem⟩⟩
  · exact .inl (Gathered.type_mem_targets (hg _ hmem))
  · exact .inr ⟨[], g.fields, hl, Gathered.fields_mem_targets (.inr (hg _ hmem)), fun _ hcf => nomatch hcf⟩
  · refine .inr ⟨fields, g.fields, hl, Gathered.fields_mem_targets (.inl ?_), fun cf hcf => hg _ (hmem cf hcf)⟩
    obtain ⟨cf, hcf⟩ := List.exists_mem_of_ne_nil fields hne
    exact List.ne_nil_of_mem (hg _ (hmem cf hcf))

/-- The types to unify with cover the constraints on `m`, and the types of the bound monomorphs it is below. -/
theorem classify_covers {n : Nat} {kind : ConstraintKind} (hk : classifyDownConstraints D n h m = some kind)
    (hagree : FieldsAgree D h m) :
    (∀ t, Says D h (h.down m) t → Covers D h kind.targets t) ∧
      ∀ x name t, .mMono x name ∈ h.down m → h.type x = some t → Solid D h t → Covers D h kind.targets t := by
  obtain ⟨p, hp, rfl⟩ := Option.map_eq_some_iff.1 hk
  obtain ⟨g, hg, rfl⟩ := Option.map_eq_some_iff.1 hp
  have hS : ∀ a b, (∃ c ∈ h.down m, Meets D h c (.mField a)) → (∃ c ∈ h.down m, Meets D h c (.mField b)) → a.1 = b.1 → a = b :=
    fun a b ⟨c1, h1, hm1⟩ ⟨c2, h2, hm2⟩ => hagree c1 h1 c2 h2 a b hm1 hm2
  have hspec := fun (c : Constraint) (hc : c ∈ h.down m) (b b' : Gathered) (hb : check D h n b c = some b') =>
    check_spec (h := h) hS (fun cf hcf => ⟨c, hc, hcf⟩) hb
  obtain ⟨-, hmem⟩ := foldlM_climbs (Gathered.Le.refl _) Gathered.Le.trans (fun c hc b b' hb => (hspec c hc b b' hb).1) hg
  constructor
  · intro t hstated
    refine Gathered.covers hstated fun c hc => ?_
    obtain ⟨b1, b2, hb, h1, h2⟩ := hmem c hc
    obtain ⟨hle, hhas, -⟩ := hspec c hc b1 b2 hb
    exact (h2 (hle h1.of_empty).1).2 c hhas
  · intro x name t hx ht hsolid
    obtain ⟨b1, b2, hb, h1, h2⟩ := hmem _ hx
    obtain ⟨hle, -, hbound⟩ := hspec _ hx b1 b2 hb
    obtain ⟨k, l, hl, hhas⟩ := hbound x name t rfl ht
    refine Gathered.covers (constraintOfType_stated hl hsolid) fun c hc => ?_
    exact (h2 (hle h1.of_empty).1).2 c (hhas h1.of_empty c hc)

/-! ## Up constraints -/

/-- What `collect_up_constraints` finds: types among the up constraints, also through unbound monomorphs, and the types
of bound ones. -/
inductive Collects (D : Typedefs) (h : Heap) : Nat → Ty × Option String → Prop where
  | type {m : Nat} {t : Ty} {name : Option String} : (t, name) ∈ h.up m → (∀ r, t ≠ .tMono r) → Collects D h m (t, name)
  | bound {m y : Nat} {t : Ty} {name : Option String} : (.tMono y, name) ∈ h.up m → h.type y = some t → Solid D h t →
      Collects D h m (t, name)
  | unbound {m y : Nat} {name : Option String} {c : Ty × Option String} : (.tMono y, name) ∈ h.up m → h.type y = none →
      Collects D h y c → Collects D h m c

theorem collect_keeps {c : Ty × Option String} : ∀ {n m : Nat} {acc l : List (Ty × Option String)},
    collect D h n m acc = some l → c ∈ acc → c ∈ l
  | 0, _, _, _, hl, _ => nomatch hl
  | n + 1, m, acc, l, hl, hc => by
    refine (foldlM_climbs (R := fun l l' => c ∈ l → c ∈ l') (fun _ => id) (fun h1 h2 => h2 ∘ h1) ?_ hl).1 hc
    intro a _ b b' hb hmem
    dsimp only at hb
    split at hb
    · split at hb
      · split at hb
        · exact nomatch hb
        · exact Option.some.inj hb ▸ hmem
        · exact Option.some.inj hb ▸ List.mem_cons_of_mem _ hmem
      · exact collect_keeps hb hmem
    · exact Option.some.inj hb ▸ List.mem_cons_of_mem _ hmem

/-- For each up constraint there is a step of the loop, and what it adds is in the end there. -/
theorem collect_step {n : Nat} {acc l : List (Ty × Option String)} (hl : collect D h (n + 1) m acc = some l) {t : Ty}
    {name : Option String} (ht : (t, name) ∈ h.up m) :
    ((∀ r, t ≠ .tMono r) → (t, name) ∈ l) ∧
      ∀ y, t = .tMono y → (∀ ty, h.type y = some ty → Solid D h ty → (ty, name) ∈ l) ∧
        (h.type y = none → ∃ acc' l', collect D h n y acc' = some l' ∧ ∀ c ∈ l', c ∈ l) := by
  obtain ⟨-, hmem⟩ := foldlM_climbs (R := fun l l' => ∀ c ∈ l, c ∈ l') (fun _ _ hc => hc)
    (fun h1 h2 c hc => h2 c (h1 c hc)) (by
      intro a _ b b' hb c hc
      dsimp only at hb
      split at hb
      · split at hb
        · split at hb
          · exact nomatch hb
          · exact Option.some.inj hb ▸ hc
          · exact Option.some.inj hb ▸ List.mem_cons_of_mem _ hc
        · exact collect_keeps hb hc
      · exact Option.some.inj hb ▸ List.mem_cons_of_mem _ hc) hl
  obtain ⟨b1, b2, hb, -, h2⟩ := hmem _ ht
  refine ⟨fun hr => ?_, ?_⟩
  · dsimp only at hb
    split at hb
    · exact absurd rfl (hr _)
    · exact h2 _ (Option.some.inj hb ▸ List.mem_cons_self)
  · rintro y rfl
    refine ⟨fun ty hy hsolid => ?_, fun hy => ?_⟩
    · simp only [hy] at hb
      split at hb
      · exact nomatch hb
      · rename_i r hf
        exact absurd rfl (hsolid.follow hf r)
      · exact h2 _ (Option.some.inj hb ▸ List.mem_cons_self)
    · simp only [hy] at hb
      exact ⟨b1, b2, hb, h2⟩

theorem Collects.mem {c : Ty × Option String} (hc : Collects D h m c) : ∀ {n : Nat} {acc l : List (Ty × Option String)},
    collect D h n m acc = some l → c ∈ l := by
  induction hc with
  | type ht hr =>
    rintro (_ | n) acc l hl
    · exact nomatch hl
    · exact (collect_step hl ht).1 hr
  | bound ht hy hsolid =>
    rintro (_ | n) acc l hl
    · exact nomatch hl
    · exact ((collect_step hl ht).2 _ rfl).1 _ hy hsolid
  | unbound ht hy _ ih =>
    rintro (_ | n) acc l hl
    · exact nomatch hl
    · obtain ⟨acc', l', hl', hsub⟩ := ((collect_step hl ht).2 _ rfl).2 hy
      exact hsub _ (ih hl')

end EvilHaxe.Unify
