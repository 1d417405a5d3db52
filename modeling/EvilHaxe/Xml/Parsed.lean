/-
What the parser returns: names and attributes are in order, the text of a node does not contain what ends the node, and no
two texts are next to each other; an empty text stands alone. This is an invariant of the loop, with one condition for
each state.
-/
import EvilHaxe.Xml.Parser
import Mathlib.Data.List.Chain

namespace EvilHaxe.Xml

variable {T : Target} {strict : Bool} {parent : Parent}

/-! ## Trees -/

def IsName (s : Str) : Prop := s ≠ [] ∧ ∀ c ∈ s, isValidChar c = true

structure AttributesOk (attributes : List (Str × Str)) : Prop where
  names : ∀ a ∈ attributes, IsName a.1
  nodup : (attributes.map Prod.fst).Nodup

/-- Read up to `stop`, `s` is read whole. -/
def Stops (stop s : Str) : Prop := ∀ a b, s = a ++ b → b ≠ [] → ¬ stop <+: b ++ stop

/-- The brackets that are open after a part of a doctype, if the part does not end it. -/
def brackets : Int → Str → Option Int
  | n, [] => some n
  | n, c :: s => if c = '[' then brackets (n + 1) s else if c = ']' then brackets (n - 1) s
    else if c = '>' ∧ n = 0 then none else brackets n s

def Node.IsText : Node → Prop
  | .pcData _ => True
  | _ => False

/-- No two texts are next to each other, and none is empty. -/
structure Separate (nodes : List Node) : Prop where
  chain : nodes.IsChain fun a b => ¬ (a.IsText ∧ b.IsText)
  nonempty : .pcData [] ∉ nodes

inductive Node.Ok : Node → Prop where
  | element {name : Str} {attributes : List (Str × Str)} {children : List Node} : IsName name → AttributesOk attributes →
      (∀ child ∈ children, child.Ok) → (children = [.pcData []] ∨ Separate children) →
      (Node.element name attributes children).Ok
  | pcData (v : Str) : (Node.pcData v).Ok
  | cData {v : Str} : Stops "]]>".toList v → (Node.cData v).Ok
  | comment {v : Str} : Stops "-->".toList v → (Node.comment v).Ok
  | docType {v : Str} : brackets 0 v = some 0 → (Node.docType v).Ok
  | processingInstruction {v : Str} : Stops "?>".toList v → (Node.processingInstruction v).Ok

structure NodesOk (nodes : List Node) : Prop where
  nonempty : nodes ≠ []
  ok : ∀ node ∈ nodes, node.Ok
  texts : nodes = [.pcData []] ∨ Separate nodes

theorem brackets_append (n : Int) (s : Str) (c : Char) : brackets n (s ++ [c]) = (brackets n s).bind fun n => brackets n [c] := by
  induction s generalizing n with
  | nil => rfl
  | cons d s ih =>
    rw [List.cons_append, brackets, brackets]
    split_ifs
    · exact ih _
    · exact ih _
    · rfl
    · exact ih _

/-! ## Parts of the text -/

/-- Within the part `s`, with `rest` after it, `stop` does not begin. -/
def Scanned (stop s rest : Str) : Prop := ∀ a b, s = a ++ b → b ≠ [] → ¬ stop <+: b ++ rest

theorem Scanned.nil (stop rest : Str) : Scanned stop [] rest := by
  intro a b hab hb
  exact absurd (List.append_eq_nil_iff.1 hab.symm).2 hb

theorem Scanned.snoc {stop s cs : Str} {c : Char} (hs : Scanned stop s (c :: cs)) (hc : ¬ stop <+: c :: cs) :
    Scanned stop (s ++ [c]) cs := by
  intro a b hab hb
  rcases List.eq_nil_or_concat b with rfl | ⟨b', d, rfl⟩
  · exact absurd rfl hb
  · rw [List.concat_eq_append, ← List.append_assoc] at hab
    obtain ⟨hs', hd⟩ := List.append_inj' hab rfl
    obtain rfl := (List.cons.inj hd).1
    rw [List.concat_eq_append, List.append_assoc]
    by_cases hb' : b' = []
    · subst hb'
      exact hc
    · exact hs a b' hs' hb'

theorem Scanned.stops {stop s rest : Str} (hs : Scanned stop s rest) (hrest : stop <+: rest) : Stops stop s := by
  intro a b hab hb hstop
  obtain ⟨r, rfl⟩ := hrest
  refine hs a b hab hb ?_
  rw [← List.append_assoc]
  exact hstop.trans (List.prefix_append _ r)

/-! ## The invariant -/

/-- The children so far, the last one first. -/
structure Kids (v : Vars) : Prop where
  ok : ∀ node ∈ v.kids, node.Ok
  separate : Separate v.kids
  nsubs : v.nsubs = v.kids.length

/-- The last child is not a text. -/
def Vars.AfterNode (v : Vars) : Prop := ∀ node ∈ v.kids.head?, ¬ node.IsText

/-- The last child is an element without children. -/
def Vars.InElement (v : Vars) : Prop := ∃ name attributes kids, v.kids = .element name attributes [] :: kids

/-- The name of the attribute that is read. -/
def Vars.NewAttribute (v : Vars) : Prop := IsName v.aname ∧ v.exists_ v.aname = false

/-- What holds in a state, with `rest` left of the text. -/
def InState (v : Vars) (rest : Str) : S → Prop
  | .begin => v.AfterNode ∧ v.buf = [] ∧ v.nbrackets = 0
  | .pcData => v.AfterNode ∧ v.nbrackets = 0 ∧ (v.buf ++ v.start ≠ [] ∨ ∃ c cs, rest = c :: cs ∧ c ≠ '<')
  | .escape => v.nbrackets = 0 ∧ (v.escapeNext = .pcData ∧ v.AfterNode ∨
      v.escapeNext = .attribVal ∧ v.InElement ∧ v.NewAttribute)
  | .beginNode => v.buf = [] ∧ v.nbrackets = 0
  | .cData => v.buf = [] ∧ v.nbrackets = 0 ∧ Scanned "]]>".toList v.start rest
  | .comment => v.buf = [] ∧ v.nbrackets = 0 ∧ Scanned "-->".toList v.start rest
  | .header => v.buf = [] ∧ v.nbrackets = 0 ∧ v.start ≠ [] ∧ Scanned "?>".toList (v.start.drop 1) rest
  | .docType => v.buf = [] ∧ brackets 0 v.start = some v.nbrackets
  | .tagName => v.buf = [] ∧ v.nbrackets = 0 ∧ ∀ c ∈ v.start, isValidChar c = true
  | .body | .childs | .waitEnd => v.buf = [] ∧ v.nbrackets = 0 ∧ v.InElement
  | .attribName => v.buf = [] ∧ v.nbrackets = 0 ∧ v.InElement ∧ ∀ c ∈ v.start, isValidChar c = true
  | .equals | .attvalBegin => v.buf = [] ∧ v.nbrackets = 0 ∧ v.InElement ∧ v.NewAttribute
  | .attribVal => v.nbrackets = 0 ∧ v.InElement ∧ v.NewAttribute
  | .close | .waitEndRet => True
  | .ignoreSpaces => False

/-- The states that come after spaces. -/
def S.AfterSpaces : S → Prop
  | .beginNode | .body | .equals | .attvalBegin | .close | .waitEndRet => True
  | _ => False

structure Inv (v : Vars) (rest : Str) : Prop where
  kids : Kids v
  state : v.state = .ignoreSpaces ∧ v.next.AfterSpaces ∧ InState v rest v.next ∨ InState v rest v.state

/-! ## The children -/

theorem Kids.congr {v v' : Vars} (hv : Kids v) (hkids : v'.kids = v.kids) (hnsubs : v'.nsubs = v.nsubs) : Kids v' := by
  refine ⟨?_, ?_, ?_⟩
  · rw [hkids]
    exact hv.ok
  · rw [hkids]
    exact hv.separate
  · rw [hkids, hnsubs]
    exact hv.nsubs

theorem Separate.cons {node : Node} {nodes : List Node} (hs : Separate nodes) (hne : node ≠ .pcData [])
    (hn : ∀ n ∈ nodes.head?, ¬ (node.IsText ∧ n.IsText)) : Separate (node :: nodes) := by
  refine ⟨List.isChain_cons.2 ⟨hn, hs.chain⟩, ?_⟩
  rw [List.mem_cons]
  rintro (h | h)
  · exact hne h.symm
  · exact hs.nonempty h

theorem Kids.addNode {v : Vars} {node : Node} (hv : Kids v) (hok : node.Ok) (hn : ¬ node.IsText) : Kids (v.addChild node) := by
  refine ⟨List.forall_mem_cons.2 ⟨hok, hv.ok⟩, ?_, congrArg (· + 1) hv.nsubs⟩
  refine hv.separate.cons ?_ fun n _ h => hn h.1
  rintro rfl
  exact hn trivial

theorem Kids.addText {v : Vars} {s : Str} (hv : Kids v) (hafter : v.AfterNode) (hs : s ≠ []) : Kids (v.addChild (.pcData s)) := by
  refine ⟨List.forall_mem_cons.2 ⟨.pcData s, hv.ok⟩, ?_, congrArg (· + 1) hv.nsubs⟩
  exact hv.separate.cons (by simpa using hs) fun n hn h => hafter n hn h.2

theorem afterNode_addChild {v : Vars} {node : Node} (hn : ¬ node.IsText) : (v.addChild node).AfterNode := by
  intro n h
  obtain rfl : node = n := by simpa [Vars.addChild] using h
  exact hn

theorem Vars.InElement.afterNode {v : Vars} (hv : v.InElement) : v.AfterNode := by
  obtain ⟨name, attributes, kids, hkids⟩ := hv
  intro n hn
  rw [hkids] at hn
  obtain rfl := Option.some.inj hn
  exact id

/-- The last child, an element, is replaced. -/
theorem Kids.replace {v v' : Vars} {name name' : Str} {attributes attributes' : List (Str × Str)}
    {children children' kids : List Node} (hv : Kids v) (hkids : v.kids = .element name attributes children :: kids)
    (hok : (Node.element name' attributes' children').Ok) (hkids' : v'.kids = .element name' attributes' children' :: kids)
    (hnsubs : v'.nsubs = v.nsubs) : Kids v' := by
  have hall := hv.ok
  have hsep := hv.separate
  have hn := hv.nsubs
  rw [hkids] at hall hsep hn
  refine ⟨?_, ?_, ?_⟩
  · rw [hkids']
    exact List.forall_mem_cons.2 ⟨hok, (List.forall_mem_cons.1 hall).2⟩
  · rw [hkids']
    refine Separate.cons ⟨hsep.chain.tail, fun h => hsep.nonempty (List.mem_cons_of_mem _ h)⟩ (by simp) ?_
    exact fun n _ h => h.1
  · rw [hkids', hnsubs, hn]
    rfl

/-! ## One round -/

theorem Inv.of {v : Vars} {rest : Str} (hkids : Kids v) (hstate : InState v rest v.state) : Inv v rest := ⟨hkids, .inr hstate⟩

/-- After a node that is no text, the parser begins again. -/
theorem inv_addNode {v : Vars} {node : Node} {rest : Str} (hv : Kids v) (hbuf : v.buf = []) (hbrackets : v.nbrackets = 0)
    (hok : node.Ok) (hn : ¬ node.IsText) : Inv { v.addChild node with state := .begin } rest :=
  .of ((hv.addNode hok hn).congr rfl rfl) ⟨afterNode_addChild hn, hbuf, hbrackets⟩

theorem stepPCData_inv {v v' : Vars} {c : Char} {cs rest : Str} (hstate : v.state = .pcData) (hv : Kids v)
    (hs : InState v (c :: cs) .pcData) (h : stepPCData v c cs = .loop v' rest) : Inv v' rest := by
  obtain ⟨hafter, hbrackets, htext⟩ := hs
  unfold stepPCData at h
  split_ifs at h with hlt hamp
  · cases h
    have hne : v.buf ++ v.start ≠ [] := by
      rcases htext with hne | ⟨d, ds, hd, hne⟩
      · exact hne
      · exact absurd ((List.cons.inj hd).1 ▸ hlt) hne
    exact ⟨(hv.addText hafter hne).congr rfl rfl, .inl ⟨rfl, trivial, rfl, hbrackets⟩⟩
  · cases h
    exact .of (hv.congr rfl rfl) ⟨hbrackets, .inl ⟨rfl, hafter⟩⟩
  · cases h
    refine .of (hv.congr rfl rfl) ?_
    rw [show (v.read c).state = .pcData from hstate]
    exact ⟨hafter, hbrackets, .inl (by simp [Vars.read])⟩

/-- What `stepUntil` does: the part ends, or it goes on. -/
theorem stepUntil_cases {stop : Str} {child : Str → Node} {v v' : Vars} {c : Char} {cs rest : Str}
    (h : stepUntil stop child v c cs = .loop v' rest) :
    stop <+: c :: cs ∧ v' = { v.addChild (child v.start) with state := .begin } ∨
      ¬ stop <+: c :: cs ∧ v' = v.read c ∧ rest = cs := by
  unfold stepUntil at h
  split_ifs at h with hstop
  · cases h
    exact .inl ⟨List.isPrefixOf_iff_prefix.1 hstop, rfl⟩
  · cases h
    exact .inr ⟨fun hs => hstop (List.isPrefixOf_iff_prefix.2 hs), rfl, rfl⟩

theorem stepBeginNode_inv {v v' : Vars} {c : Char} {cs rest : Str} (hv : Kids v) (hs : InState v (c :: cs) .beginNode)
    (h : stepBeginNode v c cs = .ok (.loop v' rest)) : Inv v' rest := by
  obtain ⟨hbuf, hbrackets⟩ := hs
  simp only [stepBeginNode, fail] at h
  split_ifs at h
  · cases h
    exact .of (hv.congr rfl rfl) ⟨hbuf, hbrackets, .nil _ _⟩
  · cases h
    exact .of (hv.congr rfl rfl) ⟨hbuf, congrArg some hbrackets.symm⟩
  · cases h
    exact .of (hv.congr rfl rfl) ⟨hbuf, hbrackets, .nil _ _⟩
  · cases h
    exact .of (hv.congr rfl rfl) ⟨hbuf, hbrackets, List.cons_ne_nil _ _, .nil _ _⟩
  · cases h
    exact ⟨hv.congr rfl rfl, .inl ⟨rfl, trivial, trivial⟩⟩
  · cases h
    exact .of (hv.congr rfl rfl) ⟨hbuf, hbrackets, fun _ hc => absurd hc List.not_mem_nil⟩

theorem forall_mem_snoc {s : Str} {c : Char} (hs : ∀ d ∈ s, isValidChar d = true) (hc : isValidChar c = true) :
    ∀ d ∈ s ++ [c], isValidChar d = true := by
  intro d hd
  rcases List.mem_append.1 hd with hd | hd
  · exact hs d hd
  · rw [List.mem_singleton.1 hd]
    exact hc

theorem attributesOk_nil : AttributesOk [] := ⟨fun _ h => absurd h List.not_mem_nil, List.nodup_nil⟩

theorem separate_nil : Separate [] := ⟨List.isChain_nil, List.not_mem_nil⟩

theorem stepTagName_inv {v v' : Vars} {c : Char} {cs rest : Str} (hstate : v.state = .tagName) (hv : Kids v)
    (hs : InState v (c :: cs) .tagName) (h : stepTagName v c cs = .ok (.loop v' rest)) : Inv v' rest := by
  obtain ⟨hbuf, hbrackets, hvalid⟩ := hs
  simp only [stepTagName, fail] at h
  split_ifs at h with hc hne
  · cases h
    refine .of (hv.congr rfl rfl) ?_
    rw [show (v.read c).state = .tagName from hstate]
    exact ⟨hbuf, hbrackets, forall_mem_snoc hvalid hc⟩
  · cases h
    have hok : (Node.element v.start [] []).Ok :=
      .element ⟨hne, hvalid⟩ attributesOk_nil (fun _ h => absurd h List.not_mem_nil) (.inr separate_nil)
    exact ⟨(hv.addNode hok id).congr rfl rfl, .inl ⟨rfl, trivial, hbuf, hbrackets, v.start, [], v.kids, rfl⟩⟩

theorem stepAttribName_inv {v v' : Vars} {c : Char} {cs rest : Str} (hstate : v.state = .attribName) (hv : Kids v)
    (hs : InState v (c :: cs) .attribName) (h : stepAttribName v c cs = .ok (.loop v' rest)) : Inv v' rest := by
  obtain ⟨hbuf, hbrackets, hin, hvalid⟩ := hs
  simp only [stepAttribName, fail] at h
  split_ifs at h with hc hne hex
  · cases h
    refine .of (hv.congr rfl rfl) ?_
    rw [show (v.read c).state = .attribName from hstate]
    exact ⟨hbuf, hbrackets, hin, forall_mem_snoc hvalid hc⟩
  · cases h
    exact ⟨hv.congr rfl rfl, .inl ⟨rfl, trivial, hbuf, hbrackets, hin, ⟨hne, hvalid⟩, Bool.not_eq_true _ ▸ hex⟩⟩

theorem Kids.mem {v : Vars} {node : Node} {kids : List Node} (hv : Kids v) (hkids : v.kids = node :: kids) : node.Ok :=
  hv.ok node (hkids ▸ List.mem_cons_self)

theorem AttributesOk.snoc {attributes : List (Str × Str)} {name value : Str} (ha : AttributesOk attributes)
    (hname : IsName name) (hnew : (attributes.lookup name).isSome = false) : AttributesOk (attributes ++ [(name, value)]) := by
  refine ⟨fun a h => ?_, ?_⟩
  · rcases List.mem_append.1 h with h | h
    · exact ha.names a h
    · rw [List.mem_singleton.1 h]
      exact hname
  · have hnot : name ∉ attributes.map Prod.fst := by
      intro hmem
      obtain ⟨a, ha, rfl⟩ := List.mem_map.1 hmem
      have := List.lookup_eq_none_iff.1 (Option.isNone_iff_eq_none.1 (Option.isSome_eq_false_iff.1 hnew)) a ha
      simp at this
    rw [List.map_append]
    refine List.nodup_append.2 ⟨ha.nodup, List.pairwise_singleton _ _, ?_⟩
    rintro x hx y hy rfl
    rw [List.mem_singleton.1 hy] at hx
    exact hnot hx

/-- The attribute is added to the last child. -/
theorem kids_set {v : Vars} (value : Str) (hv : Kids v) (hin : v.InElement) (hnew : v.NewAttribute) :
    Kids (v.set value) ∧ (v.set value).InElement ∧ (v.set value).nbrackets = v.nbrackets := by
  obtain ⟨name, attributes, kids, hkids⟩ := hin
  have hset : v.set value = { v with kids := .element name (attributes ++ [(v.aname, value)]) [] :: kids } := by
    unfold Vars.set
    rw [hkids]
  have hfresh : (attributes.lookup v.aname).isSome = false := by
    have := hnew.2
    unfold Vars.exists_ at this
    rwa [hkids] at this
  rw [hset]
  refine ⟨hv.replace hkids ?_ rfl rfl, ⟨name, _, kids, rfl⟩, rfl⟩
  cases hv.mem hkids with
  | element hname hattributes hok htexts => exact .element hname (hattributes.snoc hnew.1 hfresh) hok htexts

theorem stepAttribVal_inv {v v' : Vars} {c : Char} {cs rest : Str} (hstate : v.state = .attribVal) (hv : Kids v)
    (hs : InState v (c :: cs) .attribVal) (h : stepAttribVal strict v c cs = .ok (.loop v' rest)) : Inv v' rest := by
  obtain ⟨hbrackets, hin, hnew⟩ := hs
  simp only [stepAttribVal] at h
  split_ifs at h
  · cases h
    exact .of (hv.congr rfl rfl) ⟨hbrackets, .inr ⟨rfl, hin, hnew⟩⟩
  · cases h
    obtain ⟨hkids, hin, hb⟩ := kids_set (v.buf ++ v.start) hv hin hnew
    exact ⟨hkids.congr rfl rfl, .inl ⟨rfl, trivial, rfl, hb.trans hbrackets, hin⟩⟩
  · cases h
    refine .of (hv.congr rfl rfl) ?_
    rw [show (v.read c).state = .attribVal from hstate]
    exact ⟨hbrackets, hin, hnew⟩

theorem stepClose_inv {v v' : Vars} {c : Char} {cs rest : Str} (hstate : v.state = .close) (hv : Kids v)
    (h : stepClose parent v c cs = .ok (.loop v' rest)) : Inv v' rest := by
  simp only [stepClose, fail] at h
  split_ifs at h
  · cases h
    refine .of (hv.congr rfl rfl) ?_
    rw [show (v.read c).state = .close from hstate]
    trivial
  · cases parent with
    | document => cases h
    | element name =>
      dsimp only at h
      split_ifs at h
      cases h
      exact ⟨hv.congr rfl rfl, .inl ⟨rfl, trivial, trivial⟩⟩

theorem stepDocType_inv {v v' : Vars} {c : Char} {cs rest : Str} (hstate : v.state = .docType) (hv : Kids v)
    (hs : InState v (c :: cs) .docType) (h : stepDocType v c cs = .loop v' rest) : Inv v' rest := by
  obtain ⟨hbuf, hbrackets⟩ := hs
  unfold stepDocType at h
  split_ifs at h with hopen hclose hend
  · cases h
    refine .of (hv.congr rfl rfl) ?_
    rw [show ({ v.read c with nbrackets := v.nbrackets + 1 } : Vars).state = .docType from hstate]
    exact ⟨hbuf, by simp [Vars.read, brackets_append, hbrackets, brackets, hopen]⟩
  · cases h
    refine .of (hv.congr rfl rfl) ?_
    rw [show ({ v.read c with nbrackets := v.nbrackets - 1 } : Vars).state = .docType from hstate]
    exact ⟨hbuf, by simp [Vars.read, brackets_append, hbrackets, brackets, hclose]⟩
  · cases h
    exact inv_addNode hv hbuf hend.2 (.docType (hend.2 ▸ hbrackets)) id
  · cases h
    refine .of (hv.congr rfl rfl) ?_
    rw [show (v.read c).state = .docType from hstate]
    refine ⟨hbuf, ?_⟩
    have : ¬ (c = '>' ∧ v.nbrackets = 0) := hend
    simp only [Vars.read, brackets_append, hbrackets, Option.bind_some, brackets, if_neg hopen, if_neg hclose, if_neg this]

theorem entity_ne {s t : Str} (h : entity T s = some t) : t ≠ [] := by
  unfold entity at h
  split_ifs at h
  · cases h
    exact T.addChar_ne _
  · cases h
    exact T.addChar_ne _
  · unfold escapes at h
    split_ifs at h
    all_goals
      cases h
      exact List.cons_ne_nil _ _

/-- Back from an entity, where something has been added to `buf`. -/
theorem inv_escaped {v : Vars} {b rest : Str} (hv : Kids v) (hs : InState v rest .escape) (hb : b ≠ []) :
    Inv { v.enter v.escapeNext with buf := b } rest := by
  obtain ⟨hbrackets, ⟨hnext, hafter⟩ | ⟨hnext, hin, hnew⟩⟩ := hs
  · refine .of (hv.congr rfl rfl) ?_
    rw [show ({ v.enter v.escapeNext with buf := b } : Vars).state = .pcData from hnext]
    exact ⟨hafter, hbrackets, .inl (by simpa [Vars.enter] using hb)⟩
  · refine .of (hv.congr rfl rfl) ?_
    rw [show ({ v.enter v.escapeNext with buf := b } : Vars).state = .attribVal from hnext]
    exact ⟨hbrackets, hin, hnew⟩

theorem stepEscape_inv {v v' : Vars} {c : Char} {cs rest : Str} (hstate : v.state = .escape) (hv : Kids v)
    (hs : InState v (c :: cs) .escape) (h : stepEscape T strict v c cs = .ok (.loop v' rest)) : Inv v' rest := by
  unfold stepEscape at h
  by_cases hc : c = ';'
  · rw [if_pos hc] at h
    cases he : entity T v.start with
    | some t =>
      rw [he] at h
      cases h
      exact inv_escaped hv hs (List.append_ne_nil_of_right_ne_nil _ (entity_ne he))
    | none =>
      rw [he] at h
      cases strict <;> cases h
      exact inv_escaped hv hs (by simp)
  rw [if_neg hc] at h
  split_ifs at h
  · cases h
    exact inv_escaped hv hs (by simp)
  · cases h
    refine .of (hv.congr rfl rfl) ?_
    rw [show (v.read c).state = .escape from hstate]
    exact hs

/-- What is to hold after spaces is not about the part that is read. -/
theorem inState_spaces {v v' : Vars} {rest rest' : Str} {s : S} (hs : s.AfterSpaces) (hkids : v'.kids = v.kids)
    (hbuf : v'.buf = v.buf) (hbrackets : v'.nbrackets = v.nbrackets) (haname : v'.aname = v.aname) (h : InState v rest s) :
    InState v' rest' s := by
  cases s <;> first
    | exact absurd hs id
    | exact trivial
    | simpa only [InState, Vars.InElement, Vars.NewAttribute, Vars.exists_, hkids, hbuf, hbrackets, haname] using h

theorem step_inv {v v' : Vars} {c : Char} {cs rest : Str} (hv : Inv v (c :: cs))
    (h : step T strict parent v c cs = .ok (.loop v' rest)) : Inv v' rest := by
  obtain ⟨hkids, ⟨hstate, hafter, hs⟩ | hs⟩ := hv
  · simp only [step, hstate] at h
    split_ifs at h
    · cases h
      exact ⟨hkids.congr rfl rfl, .inl ⟨hstate, hafter, inState_spaces (v := v) (s := v.next) hafter rfl rfl rfl rfl hs⟩⟩
    · cases h
      exact .of (hkids.congr rfl rfl) (inState_spaces hafter rfl rfl rfl rfl hs)
  · unfold step at h
    split at h
    all_goals
      rename_i hstate
      rw [hstate] at hs
    · exact hs.elim
    · -- begin
      obtain ⟨hlast, hbuf, hbrackets⟩ := hs
      split_ifs at h with hlt
      · cases h
        exact ⟨hkids.congr rfl rfl, .inl ⟨rfl, trivial, hbuf, hbrackets⟩⟩
      · cases h
        exact .of (hkids.congr rfl rfl) ⟨hlast, hbrackets, .inr ⟨c, cs, rfl, hlt⟩⟩
    · exact stepPCData_inv hstate hkids hs (Except.ok.inj h)
    · -- cData
      obtain ⟨hbuf, hbrackets, hscan⟩ := hs
      rcases stepUntil_cases (Except.ok.inj h) with ⟨hstop, rfl⟩ | ⟨hstop, rfl, rfl⟩
      · exact inv_addNode hkids hbuf hbrackets (.cData (hscan.stops hstop)) id
      · refine .of (hkids.congr rfl rfl) ?_
        rw [show (v.read c).state = .cData from hstate]
        exact ⟨hbuf, hbrackets, hscan.snoc hstop⟩
    · exact stepBeginNode_inv hkids hs h
    · exact stepTagName_inv hstate hkids hs h
    · -- body
      obtain ⟨hbuf, hbrackets, hin⟩ := hs
      split_ifs at h
      · cases h
        exact .of (hkids.congr rfl rfl) ⟨hbuf, hbrackets, hin⟩
      · cases h
        exact .of (hkids.congr rfl rfl) ⟨hbuf, hbrackets, hin⟩
      · cases h
        exact .of (hkids.congr rfl rfl) ⟨hbuf, hbrackets, hin, fun _ hc => absurd hc List.not_mem_nil⟩
    · exact stepAttribName_inv hstate hkids hs h
    · -- equals
      unfold fail at h
      split_ifs at h
      cases h
      exact ⟨hkids.congr rfl rfl, .inl ⟨rfl, trivial, hs⟩⟩
    · -- attvalBegin
      unfold fail at h
      split_ifs at h
      cases h
      exact .of (hkids.congr rfl rfl) hs.2
    · exact stepAttribVal_inv hstate hkids hs h
    · cases h
    · -- waitEnd
      obtain ⟨hbuf, hbrackets, hin⟩ := hs
      unfold fail at h
      split_ifs at h
      cases h
      exact .of (hkids.congr rfl rfl) ⟨hin.afterNode, hbuf, hbrackets⟩
    · unfold fail at h
      split_ifs at h <;> cases h
    · exact stepClose_inv hstate hkids h
    · -- comment
      obtain ⟨hbuf, hbrackets, hscan⟩ := hs
      rcases stepUntil_cases (Except.ok.inj h) with ⟨hstop, rfl⟩ | ⟨hstop, rfl, rfl⟩
      · exact inv_addNode hkids hbuf hbrackets (.comment (hscan.stops hstop)) id
      · refine .of (hkids.congr rfl rfl) ?_
        rw [show (v.read c).state = .comment from hstate]
        exact ⟨hbuf, hbrackets, hscan.snoc hstop⟩
    · exact stepDocType_inv hstate hkids hs (Except.ok.inj h)
    · -- header
      obtain ⟨hbuf, hbrackets, hstart, hscan⟩ := hs
      rcases stepUntil_cases (Except.ok.inj h) with ⟨hstop, rfl⟩ | ⟨hstop, rfl, rfl⟩
      · exact inv_addNode hkids hbuf hbrackets (.processingInstruction (hscan.stops hstop)) id
      · refine .of (hkids.congr rfl rfl) ?_
        rw [show (v.read c).state = .header from hstate]
        refine ⟨hbuf, hbrackets, by simp [Vars.read], ?_⟩
        rw [show (v.read c).start.drop 1 = v.start.drop 1 ++ [c] by
          cases hv : v.start with
          | nil => exact absurd hv hstart
          | cons d s => simp [Vars.read, hv]]
        exact hscan.snoc hstop
    · exact stepEscape_inv hstate hkids hs h

/-! ## Whole runs -/

theorem Separate.reverse {nodes : List Node} (hs : Separate nodes) : Separate nodes.reverse := by
  refine ⟨List.isChain_reverse.2 (hs.chain.imp fun a b h h' => h h'.symm), ?_⟩
  rw [List.mem_reverse]
  exact hs.nonempty

theorem Kids.nodesOk {v : Vars} (hv : Kids v) (hn : v.nsubs ≠ 0) : NodesOk v.kids.reverse := by
  refine ⟨fun h => hn ?_, fun node h => hv.ok node (List.mem_reverse.1 h), .inr hv.separate.reverse⟩
  rw [hv.nsubs, List.reverse_eq_nil_iff.1 h]
  rfl

theorem nodesOk_empty : NodesOk [.pcData []] := by
  refine ⟨List.cons_ne_nil _ _, fun node h => ?_, .inl rfl⟩
  rw [List.mem_singleton.1 h]
  exact .pcData []

theorem Kids.eq_nil {v : Vars} (hv : Kids v) (hn : v.nsubs = 0) : v.kids = [] :=
  List.eq_nil_of_length_eq_zero (hv.nsubs.symm.trans hn)

/-- One round goes on, calls the parser, or returns. -/
theorem step_cases {v : Vars} {c : Char} {cs : Str} {r : Next} (h : step T strict parent v c cs = .ok r) :
    (∃ v' rest, r = .loop v' rest) ∨ (v.state = .childs ∧ r = .descend) ∨
      (v.state = .waitEndRet ∧ r = .return (if v.nsubs = 0 then { v with kids := .pcData [] :: v.kids } else v)) := by
  unfold step at h
  split at h
  case h_12 _ hstate => exact .inr (.inl ⟨hstate, (Except.ok.inj h).symm⟩)
  case h_14 _ hstate =>
    unfold fail at h
    by_cases hc : c = '>'
    · rw [if_pos hc] at h
      exact .inr (.inr ⟨hstate, (Except.ok.inj h).symm⟩)
    · rw [if_neg hc] at h
      cases h
  all_goals
    left
    try simp only [stepPCData, stepUntil, stepBeginNode, stepTagName, stepAttribName, stepAttribVal, stepClose, stepDocType,
      stepEscape, fail] at h
    repeat' split at h
    all_goals
      cases h
      try exact ⟨_, _, rfl⟩

theorem step_return {v v' : Vars} {c : Char} {cs : Str} (hv : Kids v) (h : step T strict parent v c cs = .ok (.return v')) :
    NodesOk v'.kids.reverse := by
  rcases step_cases h with ⟨_, _, hr⟩ | ⟨_, hr⟩ | ⟨_, hr⟩
  · cases hr
  · cases hr
  · obtain rfl := Next.return.inj hr
    split_ifs with hn
    · rw [hv.eq_nil hn]
      exact nodesOk_empty
    · exact hv.nodesOk hn

/-- The parser calls itself where an element has begun. -/
theorem step_descend {v : Vars} {c : Char} {cs : Str} (hv : Inv v (c :: cs)) (h : step T strict parent v c cs = .ok .descend) :
    InState v (c :: cs) .childs := by
  rcases step_cases h with ⟨_, _, hr⟩ | ⟨hstate, _⟩ | ⟨_, hr⟩
  · cases hr
  · rcases hv.state with ⟨hspaces, _⟩ | hs
    · exact absurd (hspaces.symm.trans hstate) (by decide)
    · rwa [hstate] at hs
  · cases hr

theorem finish_ok {v v' : Vars} (hv : Inv v []) (h : finish strict parent v = .ok v') : NodesOk v'.kids.reverse := by
  obtain ⟨hkids, ⟨hstate, _, _⟩ | hs⟩ := hv
  · simp [finish, hstate, fail] at h
  cases hstate : v.state with
  | begin =>
    rw [hstate] at hs
    obtain ⟨_, hbuf, _⟩ := hs
    cases parent with
    | element name => simp [finish, hstate, Vars.enter] at h
    | document =>
      simp only [finish, hstate, Vars.enter, hbuf, if_true, ne_eq, not_true, false_or, List.append_nil] at h
      cases h
      split_ifs with hn
      · simp only [Vars.addChild, hkids.eq_nil hn]
        exact nodesOk_empty
      · exact hkids.nodesOk hn
  | pcData =>
    rw [hstate] at hs
    obtain ⟨hafter, _, htext⟩ := hs
    cases parent with
    | element name => simp [finish, hstate] at h
    | document =>
      simp only [finish, hstate, reduceCtorEq, if_false, if_true] at h
      cases h
      split_ifs with hcond
      · refine (hkids.addText hafter ?_).nodesOk (Nat.succ_ne_zero _)
        exact htext.resolve_right fun ⟨c, cs, hnil, _⟩ => List.cons_ne_nil c cs hnil.symm
      · exact hkids.nodesOk fun hn => hcond (.inr hn)
  | escape =>
    rw [hstate] at hs
    simp only [finish, hstate, fail, reduceCtorEq, if_false, true_and] at h
    split_ifs at h with hcond
    cases h
    rcases hs with ⟨_, ⟨_, hafter⟩ | ⟨hnext, _⟩⟩
    · exact (hkids.addText hafter (by simp)).nodesOk (Nat.succ_ne_zero _)
    · exact absurd (hcond.2.symm.trans hnext) (by decide)
  | _ => simp [finish, hstate, fail] at h

/-- The children are put into the element. -/
theorem inv_setChildren {v : Vars} {children : List Node} {rest rest' : Str} (hv : Kids v) (hs : InState v rest .childs)
    (hc : NodesOk children) : Inv { v.setChildren children with state := .begin } rest' := by
  obtain ⟨hbuf, hbrackets, name, attributes, kids, hkids⟩ := hs
  have hset : v.setChildren children = { v with kids := .element name attributes children :: kids } := by
    unfold Vars.setChildren
    rw [hkids]
  rw [hset]
  refine .of (hv.replace hkids ?_ rfl rfl) ⟨?_, hbuf, hbrackets⟩
  · cases hv.mem hkids with
    | element hname hattributes _ _ => exact .element hname hattributes hc.ok hc.texts
  · intro node hn
    obtain rfl := Option.some.inj hn
    exact id

theorem inv_init (rest : Str) : Inv .init rest :=
  .of ⟨fun _ h => absurd h List.not_mem_nil, separate_nil, rfl⟩ ⟨by simp [Vars.AfterNode, Vars.init], rfl, rfl⟩

theorem doParse_ok {n : Nat} {v : Vars} {str rest : Str} {nodes : List Node} (hv : Inv v str)
    (h : doParse T strict n parent v str = .ok (nodes, rest)) : NodesOk nodes := by
  induction n generalizing parent v str rest nodes with
  | zero => cases h
  | succ n ih =>
    cases str with
    | nil =>
      cases hf : finish strict parent v with
      | error e => simp only [doParse, hf, bind, Except.bind] at h; cases h
      | ok v' =>
        simp only [doParse, hf, bind, Except.bind, pure, Except.pure] at h
        cases h
        exact finish_ok hv hf
    | cons c cs =>
      cases hs : step T strict parent v c cs with
      | error e => simp only [doParse, hs, bind, Except.bind] at h; cases h
      | ok next =>
        simp only [doParse, hs, bind, Except.bind, pure, Except.pure] at h
        cases next with
        | loop v' rest' => exact ih (step_inv hv hs) h
        | «return» v' =>
          cases h
          exact step_return hv.kids hs
        | descend =>
          cases hc : doParse T strict n (.element v.nodeName) .init (c :: cs) with
          | error e => simp only [hc] at h; cases h
          | ok res =>
            simp only [hc] at h
            exact ih (inv_setChildren hv.kids (step_descend hv hs) (ih (inv_init _) hc)) h

/-- Every document that the parser returns is in order. -/
theorem parse_ok {n : Nat} {str : Str} {doc : List Node} (h : parse T n str strict = .ok doc) : NodesOk doc := by
  unfold parse at h
  cases hd : doParse T strict n .document .init str with
  | error e => simp only [hd, bind, Except.bind] at h; cases h
  | ok res =>
    simp only [hd, bind, Except.bind, pure, Except.pure] at h
    cases h
    exact doParse_ok (inv_init str) hd

end EvilHaxe.Xml
