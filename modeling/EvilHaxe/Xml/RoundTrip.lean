/-
A document that the parser returns is printed, and parsed again: it is the same document, if the printer leaves nothing out
and no entity ends the text.
-/
import EvilHaxe.Xml.Nodes

namespace EvilHaxe.Xml

variable {T : Target} {keys : List (Str × Str) → List (Str × Str)}

theorem writeNodes_append (pretty : Bool) (tabs : Str) (nodes nodes' : List Node) :
    writeNodes keys pretty tabs (nodes ++ nodes') = writeNodes keys pretty tabs nodes ++ writeNodes keys pretty tabs nodes' := by
  induction nodes with
  | nil => rfl
  | cons node nodes ih => rw [List.cons_append, writeNodes_cons, ih, writeNodes_cons, List.append_assoc]

theorem Separate.left {nodes nodes' : List Node} (h : Separate (nodes ++ nodes')) : Separate nodes :=
  ⟨h.chain.left_of_append, fun hm => h.nonempty (List.mem_append_left _ hm)⟩

/-- Nodes of which the last one is no text, and what comes after them. -/
theorem goes_nodes {nodes : List Node} (hsep : Separate nodes) (hp : ∀ node ∈ nodes, ¬ node.IsText → Printed T keys node)
    (hlast : ∀ node ∈ nodes.getLast?, ¬ node.IsText) (r : Str) : ∃ nodes' v, List.Forall₂ Node.Same nodes nodes' ∧
      Begins v nodes'.reverse ∧ Goes T .document .init (writeNodes keys false [] nodes ++ r) v r := by
  rcases List.eq_nil_or_concat nodes with rfl | ⟨before, node, rfl⟩
  · exact ⟨[], .init, .nil, begins_init, .refl _ _⟩
  · rw [List.concat_eq_append] at *
    obtain ⟨before', hall⟩ := readsAll hsep.left fun n hn => hp n (List.mem_append_left _ hn)
    obtain ⟨text, node', htext, hsame, hreads⟩ := hp node (by simp) (hlast node (by simp))
    obtain ⟨w, hw, hgo⟩ := hall.begin_ .document (text ++ r) begins_init
    rw [List.append_nil] at hw
    obtain ⟨v, hv, hgo'⟩ := hreads .document w _ r hw
    refine ⟨before' ++ [node'], v, List.rel_append hall.same (.cons hsame .nil), ?_, ?_⟩
    · rw [List.reverse_append]
      exact hv
    · rw [writeNodes_append, writeNodes_cons, writeNodes_nil, htext]
      simpa using hgo.trans hgo'

/-! ## The end of the text -/

theorem yields_nodes {v : Vars} {kids : List Node} (hv : Begins v kids) (hkids : kids ≠ []) :
    Yields T .document v [] (kids.reverse, []) := by
  have hn : v.nsubs ≠ 0 := by
    rw [hv.ready.nsubs]
    exact fun h => hkids (List.eq_nil_of_length_eq_zero h)
  have hfinish : finish false .document v = .ok (v.enter .pcData) := by
    simp [finish, hv.state, Vars.enter, hn]
  have h := yields_finish (T := T) hfinish
  rwa [show (v.enter .pcData).kids = kids from hv.ready.kids] at h

/-- The characters that the printer writes as entities in a text. -/
def IsEscaped (c : Char) : Prop := c = '&' ∨ c = '<' ∨ c = '>'

/-- The last part of the text is not empty, or there is no node before it. -/
theorem yields_pcData {v : Vars} {kids : List Node} {s : Str} (hstate : v.state = .pcData) (htext : v.text = s)
    (hkids : v.kids = kids) (hadd : v.start ≠ [] ∨ v.nsubs = 0) :
    Yields T .document v [] ((Node.pcData s :: kids).reverse, []) := by
  have hfinish : finish false .document v = .ok (v.addChild (.pcData s)) := by
    simp only [finish, hstate, reduceCtorEq, if_false, if_true, if_pos hadd]
    rw [← htext]
    rfl
  have h := yields_finish (T := T) hfinish
  rwa [show (v.addChild (.pcData s)).kids = .pcData s :: kids from congrArg (_ :: ·) hkids] at h

theorem yields_text {v : Vars} {kids : List Node} {s : Str} (hv : Begins v kids) (hs : s ≠ [])
    (hlast : kids ≠ [] → ∀ c ∈ s.getLast?, ¬ IsEscaped c) :
    Yields T .document v (htmlEscape s false) ((Node.pcData s :: kids).reverse, []) := by
  have hbegin : Goes T .document v (htmlEscape s false) (v.enter .pcData) (htmlEscape s false) := by
    have h := goes_enter T .document hv.state hs []
    rwa [List.append_nil] at h
  have hbuf : (v.enter .pcData).text = [] := by simp [Vars.text, Vars.enter, hv.ready.buf]
  apply hbegin
  by_cases hkids : kids = []
  · obtain ⟨w, hw, hgo⟩ := goes_pcData T .document (v := v.enter .pcData) rfl s []
    rw [List.append_nil] at hgo
    apply hgo
    refine yields_pcData hw.state ?_ (hw.kids.trans hv.ready.kids) (.inr ?_)
    · rw [hw.text, hbuf, List.nil_append]
    · rw [hw.nsubs]
      exact hv.ready.nsubs.trans (by rw [hkids]; rfl)
  · obtain rfl | ⟨s, c, rfl⟩ := List.eq_nil_or_concat s
    · exact absurd rfl hs
    rw [List.concat_eq_append] at hlast ⊢
    have hc : ¬ IsEscaped c := hlast hkids c (by simp)
    have hesc : htmlEscape (s ++ [c]) false = htmlEscape s false ++ [c] := by
      have hamp : ¬ c = '&' := fun h => hc (.inl h)
      have hlt : ¬ c = '<' := fun h => hc (.inr (.inl h))
      have hgt : ¬ c = '>' := fun h => hc (.inr (.inr h))
      simp [htmlEscape, escapeChar, hamp, hlt, hgt]
    obtain ⟨w, hw, hgo⟩ := goes_pcData T .document (v := v.enter .pcData) rfl s [c]
    rw [hesc]
    have hread : Goes T .document w [c] (w.read c) [] := by
      refine goes_step ?_
      have hamp : ¬ c = '&' := fun h => hc (.inl h)
      have hlt : ¬ c = '<' := fun h => hc (.inr (.inl h))
      simp only [step, hw.state, Vars.enter, stepPCData, if_neg hamp, if_neg hlt]
    apply hgo
    apply hread
    refine yields_pcData hw.state ?_ (hw.kids.trans hv.ready.kids) (.inl (by simp [Vars.read]))
    rw [show (w.read c).text = w.text ++ [c] by simp [Vars.text, Vars.read], hw.text, hbuf, List.nil_append]

/-- At the end of the document, after other nodes, there is no text that ends with an entity. -/
def LastText (doc : List Node) : Prop :=
  ∀ before s, doc = before ++ [.pcData s] → before ≠ [] → ∀ c ∈ s.getLast?, ¬ IsEscaped c

theorem exists_lastText {doc : List Node} (h : ¬ ∀ node ∈ doc.getLast?, ¬ node.IsText) : ∃ before s, doc = before ++ [.pcData s] := by
  push Not at h
  obtain ⟨node, hnode, htext⟩ := h
  obtain ⟨before, rfl⟩ := List.getLast?_eq_some_iff.1 hnode
  cases node with
  | pcData s => exact ⟨before, s, rfl⟩
  | _ => exact absurd htext id

theorem Separate.before_text {before : List Node} {s : Str} (h : Separate (before ++ [.pcData s])) :
    ∀ node ∈ before.getLast?, ¬ node.IsText := by
  intro node hnode htext
  obtain ⟨before, rfl⟩ := List.getLast?_eq_some_iff.1 hnode
  have hchain := h.chain
  rw [List.append_assoc] at hchain
  have := (hchain.right_of_append).rel
  exact this ⟨htext, trivial⟩

theorem yields_print {doc : List Node} (hkeys : ∀ l, (keys l).Perm l) (hok : NodesOk doc) (hwhole : ∀ node ∈ doc, node.Whole)
    (hlast : LastText doc) : ∃ doc', List.Forall₂ Node.Same doc doc' ∧ Yields T .document .init (print keys doc false) (doc', []) := by
  obtain ⟨hne, hok, rfl | hsep⟩ := hok
  · have hfinish : finish false .document .init = .ok (Vars.addChild { Vars.init with state := .pcData } (.pcData [])) := rfl
    exact ⟨[.pcData []], .cons (.pcData []) .nil, yields_finish hfinish⟩
  have hp : ∀ node ∈ doc, ¬ node.IsText → Printed T keys node := fun node hm => printed hkeys (hok node hm) (hwhole node hm)
  by_cases hend : ∀ node ∈ doc.getLast?, ¬ node.IsText
  · obtain ⟨doc', v, hsame, hv, hgo⟩ := goes_nodes (T := T) hsep hp hend []
    refine ⟨doc', hsame, ?_⟩
    rw [List.append_nil] at hgo
    have hne' : doc'.reverse ≠ [] := by
      rw [ne_eq, List.reverse_eq_nil_iff]
      rintro rfl
      cases hsame
      exact hne rfl
    have h := hgo _ (yields_nodes hv hne')
    rwa [List.reverse_reverse] at h
  · obtain ⟨before, s, rfl⟩ := exists_lastText hend
    have hs : s ≠ [] := by
      rintro rfl
      exact hsep.nonempty (by simp)
    obtain ⟨before', v, hsame, hv, hgo⟩ := goes_nodes (T := T) hsep.left (fun n hn => hp n (List.mem_append_left _ hn))
      (fun n hn h => hsep.before_text n hn h) (htmlEscape s false)
    refine ⟨before' ++ [.pcData s], List.rel_append hsame (.cons (.pcData s) .nil), ?_⟩
    have hprint : print keys (before ++ [.pcData s]) false = writeNodes keys false [] before ++ htmlEscape s false := by
      unfold print
      rw [writeNodes_append, writeNodes_cons, writeNodes_nil, writeNode_text hs, List.append_nil]
    rw [hprint]
    apply hgo
    have h := yields_text (T := T) hv hs fun hkids => hlast before s rfl ?_
    · rwa [List.reverse_cons, List.reverse_reverse] at h
    · rintro rfl
      cases hsame
      exact hkids rfl

/-- A target, for characters below 128. -/
def ascii : Target where
  addChar c := if 0 ≤ c.getD (-1) ∧ c.getD (-1) < 128 then [Char.ofNat (c.getD (-1)).toNat] else ['?']
  addChar_ascii c h := by
    have hc : (0 : Int) ≤ c.toNat ∧ (c.toNat : Int) < 128 := by omega
    rw [if_pos (by exact hc)]
    simp
  addChar_ne c := by split_ifs <;> exact List.cons_ne_nil _ _

def sample : List Node :=
  [.element ['a'] [(['b'], "1&2".toList)] [.pcData "x < ".toList, .processingInstruction ['p'], .comment ['c']], .pcData ['t']]

/-- The document of the text is not the one that its print is read as. -/
def Loses (str : String) : Prop :=
  ∃ doc, parse ascii 100 str.toList false = .ok doc ∧
    ∃ doc', (∀ n, parse ascii (n + 100) (print id doc false) false = .ok doc') ∧ ¬ List.Forall₂ Node.Same doc doc'

end EvilHaxe.Xml
