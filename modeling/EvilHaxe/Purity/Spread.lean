/-
How `taint` spreads through the table of nodes: what it makes impure is tainted, and when it is done with a node, so
are the users of the node and the fields that it overrides.
-/
import Mathlib.Data.Finset.Card
import EvilHaxe.Purity.Effects

namespace EvilHaxe.Purity

open EvilHaxe.Syntax EvilHaxe.Typed

variable {D : Decls}

/-! ## The table -/

namespace NodeLut

theorem find_cons (lut : NodeLut D) (id id' : String) (node : PurityNode D) :
    find ((id, node) :: lut) id' = if id' = id then some node else lut.find id' := by
  unfold find
  rw [List.lookup_cons]
  split_ifs with h
  · rw [beq_iff_eq.2 h]
  · rw [beq_eq_false_iff_ne.2 h]

theorem modify_cons (f : PurityNode D → PurityNode D) (id k : String) (node : PurityNode D) (rest : NodeLut D) :
    modify ((k, node) :: rest) id f = (k, if k = id then f node else node) :: modify rest id f := rfl

theorem find_modify (f : PurityNode D → PurityNode D) (id id' : String) : ∀ lut : NodeLut D,
    (lut.modify id f).find id' = if id' = id then (lut.find id).map f else lut.find id'
  | [] => by simp [modify, find]
  | (k, node) :: rest => by
    have ih := find_modify f id id' rest
    rw [modify_cons, find_cons, find_cons, find_cons, ih]
    by_cases h : id' = k
    · subst h
      by_cases hk : id' = id
      · subst hk
        simp
      · simp [hk]
    · by_cases hid : id' = id
      · subst hid
        simp [h]
      · simp [h, hid]

def isImpure (lut : NodeLut D) (id : String) : Bool := (lut.find id).any fun node => node.pnPurity = .impure

theorem isImpure_iff {lut : NodeLut D} {id : String} :
    lut.isImpure id = true ↔ ∃ node, lut.find id = some node ∧ node.pnPurity = .impure := by
  simp [isImpure, Option.any_eq_true]

/-- Nodes stay, gain users, and may turn impure; an impure node stays as it is. -/
def Ext (lut lut' : NodeLut D) : Prop :=
  ∀ id node, lut.find id = some node → ∃ node', lut'.find id = some node' ∧ node'.pnClass = node.pnClass ∧
    node'.pnField = node.pnField ∧ (node'.pnPurity = node.pnPurity ∨ node'.pnPurity = .impure) ∧
    node.pnDependents ⊆ node'.pnDependents ∧ (node.pnPurity = .impure → node' = node)

theorem Ext.refl (lut : NodeLut D) : lut.Ext lut := fun _ node h =>
  ⟨node, h, rfl, rfl, .inl rfl, List.Subset.refl _, fun _ => rfl⟩

theorem Ext.trans {lut lut' lut'' : NodeLut D} (h : lut.Ext lut') (h' : lut'.Ext lut'') : lut.Ext lut'' := by
  intro id node hf
  obtain ⟨node', hf', hc, hcf, hp, hd, hi⟩ := h id node hf
  obtain ⟨node'', hf'', hc', hcf', hp', hd', hi'⟩ := h' id node' hf'
  refine ⟨node'', hf'', hc'.trans hc, hcf'.trans hcf, ?_, List.Subset.trans hd hd', fun hn => ?_⟩
  · rcases hp' with hp' | hp'
    · rw [hp']
      exact hp
    · exact .inr hp'
  · obtain rfl := hi hn
    exact hi' hn

theorem Ext.impure {lut lut' : NodeLut D} (h : lut.Ext lut') {id : String} (hi : lut.isImpure id = true) :
    lut'.isImpure id = true := by
  rw [isImpure_iff] at hi ⊢
  obtain ⟨node, hf, hp⟩ := hi
  obtain ⟨node', hf', -, -, -, -, heq⟩ := h id node hf
  obtain rfl := heq hp
  exact ⟨_, hf', hp⟩

theorem Ext.isSome {lut lut' : NodeLut D} (h : lut.Ext lut') {id : String} (hs : (lut.find id).isSome) :
    (lut'.find id).isSome := by
  obtain ⟨node, hf⟩ := Option.isSome_iff_exists.1 hs
  obtain ⟨node', hf', -⟩ := h id node hf
  exact Option.isSome_iff_exists.2 ⟨node', hf'⟩

end NodeLut

open NodeLut

/-! ## Nodes that are in order -/

namespace Program

variable (p : Program D) (l : List (Entry D))

/-- A node of the table: it stands for a field, is impure only if that is, and was noted down by its users. -/
structure NodeOk (lut : NodeLut D) (id : String) (node : PurityNode D) : Prop where
  entry : ∃ a ∈ l, a.c = node.pnClass ∧ a.cf = node.pnField ∧ id = p.entryId a
  state : ∃ s, p.getPurity node.pnClass node.pnField = .ok s ∧ (node.pnPurity = s ∨
    node.pnPurity = .impure ∧ s ≠ .expectPure)
  impure : node.pnPurity = .impure → p.IsImpure l node.pnClass node.pnField
  users : ∀ d ∈ node.pnDependents, p.getPurity node.pnClass node.pnField = .ok .maybePure ∧
    ∃ a ∈ l, d = p.entryId a ∧ (lut.find d).isSome ∧ p.Does a (.calls node.pnClass node.pnField)

def TableOk (lut : NodeLut D) : Prop := ∀ id node, lut.find id = some node → p.NodeOk l lut id node

/-- An impure node with which `taint` is done. -/
def SettledAt (lut : NodeLut D) (id : String) : Prop :=
  ∃ node, lut.find id = some node ∧ node.pnPurity = .impure ∧
    (p.getPurity node.pnClass node.pnField = .ok .impure ∨
      (∀ d ∈ node.pnDependents, lut.isImpure d = true) ∧
      ∀ d g, p.SuperField node.pnClass (p.fld node.pnField).cfName d g → lut.isImpure (p.getFieldId d g) = true)

/-- What any piece of work does to a table in order. -/
structure Grown (lut lut' : NodeLut D) : Prop where
  ok : p.TableOk l lut'
  ext : lut.Ext lut'
  settled : ∀ id, lut'.isImpure id = true → lut.isImpure id = true ∨ p.SettledAt lut' id

variable {p l} {lut lut' lut'' : NodeLut D}

theorem SettledAt.ext (hx : lut.Ext lut') {id : String} (h : p.SettledAt lut id) : p.SettledAt lut' id := by
  obtain ⟨node, hf, hi, h⟩ := h
  obtain ⟨node', hf', -, -, -, -, heq⟩ := hx id node hf
  obtain rfl := heq hi
  refine ⟨node', hf', hi, h.imp_right ?_⟩
  rintro ⟨hd, hs⟩
  exact ⟨fun d hm => hx.impure (hd d hm), fun d g hg => hx.impure (hs d g hg)⟩

theorem Grown.refl (h : p.TableOk l lut) : p.Grown l lut lut := ⟨h, .refl lut, fun _ h => .inl h⟩

theorem Grown.trans (h : p.Grown l lut lut') (h' : p.Grown l lut' lut'') : p.Grown l lut lut'' := by
  refine ⟨h'.ok, h.ext.trans h'.ext, fun id hi => ?_⟩
  rcases h'.settled id hi with hi | hs
  · rcases h.settled id hi with hi | hs
    · exact .inl hi
    · exact .inr (hs.ext h'.ext)
  · exact .inr hs

theorem NodeOk.ext (hx : lut.Ext lut') {id : String} {node : PurityNode D} (h : p.NodeOk l lut id node) :
    p.NodeOk l lut' id node := by
  refine ⟨h.entry, h.state, h.impure, fun d hd => ?_⟩
  obtain ⟨hs, a, ha, hda, hf, hu⟩ := h.users d hd
  exact ⟨hs, a, ha, hda, hx.isSome hf, hu⟩

/-- The node that is kept for a field is the field's. -/
theorem TableOk.field (hp : p.Closed l) (h : p.TableOk l lut) {a : Entry D} (ha : a ∈ l) {node : PurityNode D}
    (hf : lut.find (p.entryId a) = some node) : node.pnClass = a.c ∧ node.pnField = a.cf := by
  obtain ⟨b, hb, hc, hcf, hid⟩ := (h _ node hf).entry
  obtain rfl := hp.ids a ha b hb hid
  exact ⟨hc.symm, hcf.symm⟩

/-- A change of one node. -/
theorem tableOk_modify (h : p.TableOk l lut) {id : String} {node : PurityNode D} {f : PurityNode D → PurityNode D}
    (hf : lut.find id = some node) (hx : lut.Ext (lut.modify id f)) (hn : p.NodeOk l lut id (f node)) :
    p.TableOk l (lut.modify id f) := by
  intro id' node' h'
  rw [find_modify] at h'
  split_ifs at h' with hid
  · subst hid
    rw [hf] at h'
    obtain rfl := Option.some.inj h'
    exact hn.ext hx
  · exact (h id' node' h').ext hx

/-! ## Results -/

/-- The work ends with a result that has the property, or with an error that it may end with. -/
def Ends {α : Type} (p : Program D) (l : List (Entry D)) (P : α → Prop) : Except (Error D) α → Prop
  | .ok x => P x
  | .error e => p.Fault l e

theorem Ends.bind {α β : Type} {P : α → Prop} {Q : β → Prop} {r : Except (Error D) α} {f : α → Except (Error D) β}
    (h : p.Ends l P r) (hf : ∀ x, P x → p.Ends l Q (f x)) : p.Ends l Q (r >>= f) := by
  cases r with
  | ok x => exact hf x h
  | error e => exact h

theorem Ends.imp {α : Type} {P Q : α → Prop} {r : Except (Error D) α} (h : p.Ends l P r) (hPQ : ∀ x, P x → Q x) :
    p.Ends l Q r := by
  cases r with
  | ok x => exact hPQ x h
  | error e => exact h

theorem getNode_spec (hp : p.Closed l) (h : p.TableOk l lut) {a : Entry D} (ha : a ∈ l) :
    p.Ends l (fun r => p.Grown l lut r.1 ∧ r.1.find (p.entryId a) = some r.2 ∧ r.2.pnClass = a.c ∧ r.2.pnField = a.cf)
      (p.getNode lut a.c a.cf) := by
  unfold getNode
  cases hf : lut.find (p.getFieldId a.c a.cf) with
  | some node => exact ⟨.refl h, hf, h.field hp ha hf⟩
  | none =>
    cases hs : p.getPurity a.c a.cf with
    | error e => exact .declared ha hs
    | ok s =>
      set node : PurityNode D := { pnClass := a.c, pnField := a.cf, pnPurity := s, pnDependents := [] } with hnode
      have hx : lut.Ext ((p.getFieldId a.c a.cf, node) :: lut) := by
        intro id node' hf'
        refine ⟨node', ?_, rfl, rfl, .inl rfl, List.Subset.refl _, fun _ => rfl⟩
        rw [find_cons, if_neg ?_]
        · exact hf'
        · rintro rfl
          rw [hf] at hf'
          cases hf'
      have hself : find ((p.getFieldId a.c a.cf, node) :: lut) (p.entryId a) = some node := by
        rw [find_cons, if_pos]
        rfl
      refine ⟨⟨fun id node' hf' => ?_, hx, fun id hi => ?_⟩, hself, rfl, rfl⟩
      · rw [find_cons] at hf'
        split_ifs at hf' with hid
        · subst hid
          obtain rfl := Option.some.inj hf'
          exact ⟨⟨a, ha, rfl, rfl, rfl⟩, ⟨s, hs, .inl rfl⟩, fun hi => .inl (hs.trans (congrArg _ hi)), fun _ h => (nomatch h)⟩
        · exact (h id node' hf').ext hx
      · by_cases hid : id = p.getFieldId a.c a.cf
        · subst hid
          obtain ⟨node', hf', hi⟩ := isImpure_iff.1 hi
          obtain rfl := Option.some.inj (hself.symm.trans hf')
          exact .inr ⟨node, hself, hi, .inl (hs.trans (congrArg _ hi))⟩
        · refine .inl ?_
          rw [isImpure, find_cons, if_neg hid] at hi
          exact hi

/-! ## The depth of the search -/

/-- How many fields are not impure. -/
def pending (p : Program D) (l : List (Entry D)) (lut : NodeLut D) : Nat :=
  ((l.map p.entryId).toFinset.filter fun id => lut.isImpure id = false).card

theorem pending_ext (hx : lut.Ext lut') : p.pending l lut' ≤ p.pending l lut := by
  apply Finset.card_le_card
  intro id
  simp only [Finset.mem_filter]
  rintro ⟨hm, hi⟩
  refine ⟨hm, ?_⟩
  by_contra h
  rw [hx.impure (Bool.eq_true_of_not_eq_false h)] at hi
  cases hi

theorem pending_lt (hx : lut.Ext lut') {a : Entry D} (ha : a ∈ l) (hi : lut.isImpure (p.entryId a) = false)
    (hi' : lut'.isImpure (p.entryId a) = true) : p.pending l lut' < p.pending l lut := by
  apply Finset.card_lt_card
  rw [Finset.ssubset_iff_of_subset]
  · refine ⟨p.entryId a, ?_, ?_⟩
    · simp only [Finset.mem_filter, List.mem_toFinset, List.mem_map]
      exact ⟨⟨a, ha, rfl⟩, hi⟩
    · simp [hi']
  · intro id
    simp only [Finset.mem_filter]
    rintro ⟨hm, hid⟩
    refine ⟨hm, ?_⟩
    by_contra h
    rw [hx.impure (Bool.eq_true_of_not_eq_false h)] at hid
    cases hid

theorem pending_le : p.pending l lut ≤ l.length := by
  refine (Finset.card_filter_le _ _).trans ((List.toFinset_card_le _).trans ?_)
  rw [List.length_map]

/-! ## Taint -/

/-- A list of nodes is tainted one after the other. -/
theorem iter_taint {f : NodeLut D → String → Except (Error D) (NodeLut D)} {lut₀ : NodeLut D} {ds : List String}
    (hf : ∀ d ∈ ds, ∀ lut, p.Grown l lut₀ lut →
      p.Ends l (fun lut' => p.Grown l lut lut' ∧ lut'.isImpure d = true) (f lut d)) :
    ∀ lut, p.Grown l lut₀ lut →
      p.Ends l (fun lut' => p.Grown l lut lut' ∧ ∀ d ∈ ds, lut'.isImpure d = true) (iter f lut ds) := by
  induction ds with
  | nil => exact fun lut h => ⟨.refl h.ok, fun _ hd => (nomatch hd)⟩
  | cons d ds ih =>
    intro lut h
    obtain ⟨hd, hds⟩ := List.forall_mem_cons.1 hf
    refine (hd lut h).bind fun lut' h' => (ih hds lut' (h.trans h'.1)).imp fun lut'' h'' => ⟨h'.1.trans h''.1, ?_⟩
    exact List.forall_mem_cons.2 ⟨h''.1.ext.impure h'.2, h''.2⟩

theorem SuperField.head {c d e : D.Cls} {g : D.Fld} {name : String} (hc : (p.cls c).clSuper = some d)
    (h : p.SuperField c name e g) :
    e = d ∧ ((p.cls d).clFields.find? fun cf => (p.fld cf).cfName = name) = some g ∨ p.SuperField d name e g := by
  obtain ⟨ht, hg⟩ := h
  obtain ⟨d', hd', ht⟩ := Relation.TransGen.head'_iff.1 ht
  obtain rfl := Option.some.inj (hc.symm.trans hd')
  rcases Relation.reflTransGen_iff_eq_or_transGen.1 ht with rfl | ht
  · exact .inl ⟨rfl, hg⟩
  · exact .inr ⟨ht, hg⟩

theorem not_superField {c d : D.Cls} {g : D.Fld} {name : String} (hc : (p.cls c).clSuper = none) :
    ¬ p.SuperField c name d g := by
  rintro ⟨ht, -⟩
  obtain ⟨d', hd', -⟩ := Relation.TransGen.head'_iff.1 ht
  rw [hc] at hd'
  cases hd'

theorem taintSupers_spec (hp : p.Closed l) {f : NodeLut D → String → Except (Error D) (NodeLut D)} {lut₀ : NodeLut D}
    {name : String} {c₀ : D.Cls} (hmem : ∀ d g, p.SuperField c₀ name d g → ∃ b ∈ l, b.c = d ∧ b.cf = g)
    (hf : ∀ d g, p.SuperField c₀ name d g → ∀ lut node, p.Grown l lut₀ lut → lut.find (p.getFieldId d g) = some node →
      node.pnClass = d → node.pnField = g →
      p.Ends l (fun lut' => p.Grown l lut lut' ∧ lut'.isImpure (p.getFieldId d g) = true) (f lut (p.getFieldId d g))) :
    ∀ n c, Relation.ReflTransGen (fun c d => (p.cls c).clSuper = some d) c₀ c → p.superDepth c ≤ n →
      ∀ lut, p.Grown l lut₀ lut →
        p.Ends l (fun lut' => p.Grown l lut lut' ∧ ∀ d g, p.SuperField c name d g →
          lut'.isImpure (p.getFieldId d g) = true) (p.taintSupers f name n lut c)
  | 0, c, _, hn, lut, h => by
    cases hc : (p.cls c).clSuper with
    | none => exact ⟨.refl h.ok, fun d g hg => absurd hg (not_superField hc)⟩
    | some d =>
      have := p.superDepth_lt c d hc
      omega
  | n + 1, c, hr, hn, lut, h => by
    unfold taintSupers
    cases hc : (p.cls c).clSuper with
    | none => exact ⟨.refl h.ok, fun d g hg => absurd hg (not_superField hc)⟩
    | some d =>
      have hd : p.superDepth d ≤ n := by
        have := p.superDepth_lt c d hc
        omega
      have ih := taintSupers_spec hp hmem hf n d (hr.tail hc) hd
      cases hg : (p.cls d).clFields.find? fun cf => (p.fld cf).cfName = name with
      | none =>
        simp only [hg]
        refine (ih lut h).imp fun lut' h' => ⟨h'.1, fun e g he => ?_⟩
        rcases he.head hc with ⟨-, hg'⟩ | he
        · rw [hg] at hg'
          cases hg'
        · exact h'.2 e g he
      | some g =>
        simp only [hg]
        have hsf : p.SuperField c₀ name d g := ⟨Relation.TransGen.tail' hr hc, hg⟩
        obtain ⟨b, hb, rfl, rfl⟩ := hmem d g hsf
        refine (getNode_spec hp h.ok hb).bind fun r hr' => ?_
        obtain ⟨hgr, hfind, hcl, hfl⟩ := hr'
        refine (hf _ _ hsf r.1 r.2 (h.trans hgr) hfind hcl hfl).bind fun lut' h' => ?_
        refine (ih lut' ((h.trans hgr).trans h'.1)).imp fun lut'' h'' => ⟨(hgr.trans h'.1).trans h''.1, fun e g' he => ?_⟩
        rcases he.head hc with ⟨rfl, hg'⟩ | he
        · obtain rfl := Option.some.inj (hg.symm.trans hg')
          exact h''.1.ext.impure h'.2
        · exact h''.2 e g' he

/-- The state of a node that is made impure. -/
theorem ext_impure {id : String} : lut.Ext (lut.modify id fun node => { node with pnPurity := .impure }) := by
  intro id' node hf
  rw [find_modify]
  split_ifs with hid
  · subst hid
    rw [hf]
    refine ⟨_, rfl, rfl, rfl, .inr rfl, List.Subset.refl _, fun hi => ?_⟩
    rw [← hi]
  · exact ⟨node, hf, rfl, rfl, .inl rfl, List.Subset.refl _, fun _ => rfl⟩

/-- The users of an impure field are tainted. -/
theorem IsImpure.user {c : D.Cls} {cf : D.Fld} (h : p.IsImpure l c cf) (hs : p.getPurity c cf = .ok .maybePure)
    {a : Entry D} (ha : a ∈ l) (hu : p.Does a (.calls c cf)) : p.IsImpure l a.c a.cf := by
  rcases h with h | h
  · rw [hs] at h
    cases h
  · exact .inr (.call ha hu hs h)

/-- A field that a tainted one overrides is impure. -/
theorem Tainted.overridden {c d : D.Cls} {cf g : D.Fld} (h : p.Tainted l c cf)
    (hg : p.SuperField c (p.fld cf).cfName d g) {s : PurityState} (hs : p.getPurity d g = .ok s) : p.IsImpure l d g := by
  by_cases hi : s = .impure
  · exact .inl (hs.trans (congrArg _ hi))
  · exact .inr (h.super hg hs hi)

theorem taint_spec (hp : p.Closed l) : ∀ (fuel : Nat) (lut : NodeLut D) (id : String) (node : PurityNode D),
    p.TableOk l lut → lut.find id = some node → p.IsImpure l node.pnClass node.pnField → p.pending l lut < fuel →
      p.Ends l (fun lut' => p.Grown l lut lut' ∧ lut'.isImpure id = true) (p.taint fuel lut id)
  | 0, _, _, _, _, _, _, h => absurd h (Nat.not_lt_zero _)
  | fuel + 1, lut, id, node, hok, hf, himp, hfuel => by
    obtain ⟨a, ha, hac, hacf, rfl⟩ := (hok _ node hf).entry
    obtain ⟨s, hs, hstate⟩ := (hok _ node hf).state
    by_cases hi : node.pnPurity = .impure
    · have hself : lut.isImpure (p.entryId a) = true := isImpure_iff.2 ⟨node, hf, hi⟩
      simp only [taint, hf, hi]
      exact ⟨.refl hok, hself⟩
    have hnot : lut.isImpure (p.entryId a) = false := by
      by_contra h
      obtain ⟨node', hf', hi'⟩ := isImpure_iff.1 (Bool.eq_true_of_not_eq_false h)
      obtain rfl := Option.some.inj (hf.symm.trans hf')
      exact hi hi'
    have hstate : node.pnPurity = s := hstate.resolve_right fun h => hi h.1
    have htaint : p.Tainted l node.pnClass node.pnField := by
      refine himp.resolve_left fun h => hi ?_
      rw [hstate]
      exact Except.ok.inj (hs.symm.trans h)
    by_cases he : node.pnPurity = .expectPure
    · simp only [taint, hf, he, Ends]
      rw [← hac, ← hacf] at hs htaint ⊢
      exact .conflict ha (hs.trans (congrArg _ (hstate.symm.trans he))) htaint
    -- the node is impure from here on; its users and the fields it overrides follow
    set lut₁ := lut.modify (p.entryId a) (fun node => { node with pnPurity := .impure }) with hlut₁
    have hx : lut.Ext lut₁ := ext_impure
    have hself : lut₁.find (p.entryId a) = some { node with pnPurity := .impure } := by
      rw [hlut₁, find_modify, if_pos rfl, hf]
      rfl
    have hself' : lut₁.isImpure (p.entryId a) = true := isImpure_iff.2 ⟨_, hself, rfl⟩
    have hok₁ : p.TableOk l lut₁ := by
      have hn := hok _ node hf
      refine tableOk_modify hok hf hx ⟨hn.entry, ⟨s, hs, .inr ⟨rfl, hstate ▸ he⟩⟩, fun _ => himp, hn.users⟩
    have hpend : ∀ lut', lut₁.Ext lut' → p.pending l lut' < fuel := by
      intro lut' hx'
      have := pending_ext (p := p) (l := l) hx'
      have := pending_lt hx ha hnot hself'
      omega
    have husers : ∀ d ∈ node.pnDependents, ∀ lut', p.Grown l lut₁ lut' →
        p.Ends l (fun lut'' => p.Grown l lut' lut'' ∧ lut''.isImpure d = true) (p.taint fuel lut' d) := by
      intro d hd lut' hg
      obtain ⟨hmaybe, b, hb, rfl, hsome, hu⟩ := (hok _ node hf).users d hd
      obtain ⟨node', hf'⟩ := Option.isSome_iff_exists.1 ((hx.trans hg.ext).isSome hsome)
      obtain ⟨hc, hcf⟩ := hg.ok.field hp hb hf'
      refine taint_spec hp fuel lut' _ node' hg.ok hf' ?_ (hpend lut' hg.ext)
      rw [hc, hcf]
      exact himp.user hmaybe hb hu
    have hsupers : ∀ d g, p.SuperField node.pnClass (p.fld node.pnField).cfName d g → ∀ lut' node', p.Grown l lut₁ lut' →
        lut'.find (p.getFieldId d g) = some node' → node'.pnClass = d → node'.pnField = g →
        p.Ends l (fun lut'' => p.Grown l lut' lut'' ∧ lut''.isImpure (p.getFieldId d g) = true)
          (p.taint fuel lut' (p.getFieldId d g)) := by
      rintro _ _ hsf lut' node' hg hf' rfl rfl
      obtain ⟨s', hs', -⟩ := (hg.ok _ node' hf').state
      exact taint_spec hp fuel lut' _ node' hg.ok hf' (htaint.overridden hsf hs') (hpend lut' hg.ext)
    have hmem : ∀ d g, p.SuperField node.pnClass (p.fld node.pnField).cfName d g → ∃ b ∈ l, b.c = d ∧ b.cf = g := by
      intro d g hsf
      rw [← hac, ← hacf] at hsf
      exact hp.supers a ha d g hsf
    have hrun : p.taint (fuel + 1) lut (p.entryId a) = iter (p.taint fuel) lut₁ node.pnDependents >>= fun lut =>
        p.taintSupers (p.taint fuel) (p.fld node.pnField).cfName (p.superDepth node.pnClass) lut node.pnClass := by
      simp only [taint, hf]
      cases hn : node.pnPurity with
      | impure => exact absurd hn hi
      | expectPure => exact absurd hn he
      | pure | maybePure | inferredPure => rfl
    rw [hrun]
    refine (iter_taint husers lut₁ (.refl hok₁)).bind fun lut₂ h₂ => ?_
    refine (taintSupers_spec hp hmem hsupers _ _ .refl le_rfl lut₂ h₂.1).imp fun lut₃ h₃ => ?_
    have hgr := h₂.1.trans h₃.1
    refine ⟨⟨hgr.ok, hx.trans hgr.ext, fun id hid => ?_⟩, hgr.ext.impure hself'⟩
    rcases hgr.settled id hid with h | h
    · by_cases heq : id = p.entryId a
      · subst heq
        obtain ⟨node', hf', -, -, -, -, hsame⟩ := hgr.ext _ _ hself
        obtain rfl := hsame rfl
        exact .inr ⟨_, hf', rfl, .inr ⟨fun d hd => h₃.1.ext.impure (h₂.2 d hd), h₃.2⟩⟩
      · refine .inl ?_
        rw [hlut₁, isImpure, find_modify, if_neg heq] at h
        exact h
    · exact .inr h

end Program

end EvilHaxe.Purity
