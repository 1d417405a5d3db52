/-
The parser reads every node that the printer writes, as long as the printer does not leave anything out.
-/
import EvilHaxe.Xml.Reading

namespace EvilHaxe.Xml

variable {T : Target}

/-- Nothing of a part has been read, and these are the children so far. -/
structure Ready (v : Vars) (nodes : List Node) : Prop where
  kids : v.kids = nodes
  nsubs : v.nsubs = nodes.length
  buf : v.buf = []
  nbrackets : v.nbrackets = 0

/-- The parser goes on in the state `next`, after spaces. -/
structure Awaits (v : Vars) (next : S) (kids : List Node) : Prop where
  state : v.state = .ignoreSpaces
  next : v.next = next
  ready : Ready v kids

structure Begins (v : Vars) (kids : List Node) : Prop where
  state : v.state = .begin
  ready : Ready v kids

theorem begins_init : Begins .init [] := ⟨rfl, rfl, rfl, rfl, rfl⟩

theorem Ready.replace {v v' : Vars} {node node' : Node} {kids : List Node} (hv : Ready v (node :: kids))
    (hkids : v'.kids = node' :: kids) (hnsubs : v'.nsubs = v.nsubs) (hbuf : v'.buf = []) (hbrackets : v'.nbrackets = 0) :
    Ready v' (node' :: kids) :=
  ⟨hkids, hnsubs.trans hv.nsubs, hbuf, hbrackets⟩

theorem Ready.addChild {v : Vars} {kids : List Node} (hv : Ready v kids) (node : Node) : Ready (v.addChild node) (node :: kids) :=
  ⟨congrArg (node :: ·) hv.kids, congrArg (· + 1) hv.nsubs, hv.buf, hv.nbrackets⟩

/-! ## Attributes -/

theorem goes_attribute (T : Target) (parent : Parent) {v : Vars} {name : Str} {attributes : List (Str × Str)} {kids : List Node} {attr : Str × Str}
    (hv : Awaits v .body (.element name attributes [] :: kids)) (hname : IsName attr.1)
    (hnew : (attributes.lookup attr.1).isSome = false) (r : Str) :
    ∃ v', Awaits v' .body (.element name (attributes ++ [attr]) [] :: kids) ∧
      Goes T parent v (writeAttribute attr ++ r) v' r := by
  obtain ⟨aname, value⟩ := attr
  obtain ⟨hstate, hnext, hready⟩ := hv
  obtain ⟨c, cs, hcs, hc⟩ := hname.head
  dsimp only at hname hnew hcs
  have hslash := valid_ne hc (d := '/') (by decide)
  have hgt := valid_ne hc (d := '>') (by decide)
  let v₁ : Vars := ({ v.read ' ' with state := .body, next := .body } : Vars).enter .attribName
  let v₂ : Vars := { v₁.reads aname with aname }
  let v₃ : Vars := { (v₂.ignoreSpaces .attvalBegin).enter .attribVal with buf := [], attrValQuote := some '"' }
  obtain ⟨v₄, hread, h₄⟩ := goes_attribVal T parent (v := v₃) rfl rfl value ('"' :: r)
  -- the name
  have h₁ (cs' : Str) : Goes T parent v (' ' :: (aname ++ cs')) v₁ (aname ++ cs') := by
    have hspace : Goes T parent v (' ' :: (aname ++ cs')) (v.read ' ') (aname ++ cs') := goes_step (by simp [step, hstate])
    rw [hcs] at hspace ⊢
    refine hspace.trans ((goes_ignoreSpaces (v := v.read ' ') hstate (valid_not_space hc) _).trans (goes_step ?_))
    simp only [step, show (v.read ' ').next = .body from hnext, if_neg hslash, if_neg hgt]
    rfl
  have h₂ (cs' : Str) : Goes T parent v₁ (aname ++ '=' :: cs') (v₂.ignoreSpaces .equals) ('=' :: cs') := by
    refine (goes_attribName rfl hname.2 _).trans (goes_step ?_)
    have hex : (v₁.reads aname).exists_ aname = false := by
      unfold Vars.exists_
      rw [show (v₁.reads aname).kids = _ from hready.kids]
      exact hnew
    have hstart : (v₁.reads aname).start = aname := rfl
    rw [show step T false parent (v₁.reads aname) '=' cs' = stepAttribName (v₁.reads aname) '=' cs' from rfl]
    simp only [stepAttribName, hstart, hname.1, if_false, hex, Bool.false_eq_true, show isValidChar '=' = false by decide]
    rfl
  -- the value
  have h₃ (cs' : Str) : Goes T parent (v₂.ignoreSpaces .equals) ('=' :: '"' :: cs') v₃ cs' := by
    have heq : Goes T parent (v₂.ignoreSpaces .equals) ('=' :: '"' :: cs') (v₂.ignoreSpaces .attvalBegin) ('"' :: cs') :=
      (goes_ignoreSpaces rfl (by decide) _).trans (goes_step rfl)
    exact heq.trans ((goes_ignoreSpaces rfl (by decide) _).trans (goes_step rfl))
  have h₅ : Goes T parent v₄ ('"' :: r) ({ v₄.set v₄.text with buf := [] }.ignoreSpaces .body) r := by
    refine goes_step ?_
    have hq : some '"' = v₄.attrValQuote := hread.attrValQuote.symm
    simp only [step, hread.state, v₃, stepAttribVal, Vars.enter]
    simp [hq, Vars.text]
  have hkids : v₄.kids = .element name attributes [] :: kids := hread.kids.trans hready.kids
  have hset : v₄.set v₄.text = { v₄ with kids := .element name (attributes ++ [(aname, value)]) [] :: kids } := by
    unfold Vars.set
    rw [hkids, hread.text, hread.aname]
    rfl
  rw [hset] at h₅
  have hstr : writeAttribute (aname, value) ++ r = ' ' :: (aname ++ '=' :: '"' :: (htmlEscape value true ++ '"' :: r)) := by
    simp [writeAttribute]
  rw [hstr]
  refine ⟨_, ?_, (h₁ _).trans ((h₂ _).trans ((h₃ _).trans (h₄.trans h₅)))⟩
  exact ⟨rfl, rfl, hready.replace rfl hread.nsubs rfl (hread.nbrackets.trans hready.nbrackets)⟩

theorem goes_attributes (T : Target) (parent : Parent) {v : Vars} {name : Str} {before attributes : List (Str × Str)} {kids : List Node}
    (hv : Awaits v .body (.element name before [] :: kids)) (hok : AttributesOk (before ++ attributes)) (r : Str) :
    ∃ v', Awaits v' .body (.element name (before ++ attributes) [] :: kids) ∧
      Goes T parent v (attributes.flatMap writeAttribute ++ r) v' r := by
  induction attributes generalizing v before with
  | nil =>
    rw [List.append_nil]
    exact ⟨v, hv, .refl v r⟩
  | cons attr attributes ih =>
    have hname : IsName attr.1 := hok.names attr (by simp)
    have hnew : (before.lookup attr.1).isSome = false := by
      rw [Option.isSome_eq_false_iff, Option.isNone_iff_eq_none, List.lookup_eq_none_iff]
      intro a ha
      have hnodup := hok.nodup
      rw [List.map_append, List.nodup_append] at hnodup
      have := hnodup.2.2 a.1 (List.mem_map_of_mem ha) attr.1 (by simp)
      simpa using this.symm
    rw [List.append_cons] at hok ⊢
    obtain ⟨w, hw, hgo⟩ := goes_attribute T parent hv hname hnew (attributes.flatMap writeAttribute ++ r)
    obtain ⟨v', hv', hgo'⟩ := ih hw hok
    refine ⟨v', hv', ?_⟩
    rw [List.flatMap_cons, List.append_assoc]
    exact hgo.trans hgo'

/-! ## Nodes without children -/

/-- After `<`, the text is read as the node. -/
def Reads (T : Target) (text : Str) (node : Node) : Prop :=
  ∀ (parent : Parent) (v : Vars) (kids : List Node) (r : Str), Awaits v .beginNode kids →
    ∃ v', Begins v' (node :: kids) ∧ Goes T parent v (text ++ r) v' r

theorem Ready.congr {v v' : Vars} {kids : List Node} (hv : Ready v kids) (hkids : v'.kids = v.kids) (hnsubs : v'.nsubs = v.nsubs)
    (hbuf : v'.buf = v.buf) (hbrackets : v'.nbrackets = v.nbrackets) : Ready v' kids :=
  ⟨hkids.trans hv.kids, hnsubs.trans hv.nsubs, hbuf.trans hv.buf, hbrackets.trans hv.nbrackets⟩

/-- The state that the parser waits for, at a character that is no space. -/
theorem Awaits.goes (T : Target) (parent : Parent) {v : Vars} {next : S} {kids : List Node} (hv : Awaits v next kids) {c : Char}
    (hc : ¬ (c = '\n' ∨ c = '\r' ∨ c = '\t' ∨ c = ' ')) (cs : Str) :
    ∃ w, Goes T parent v (c :: cs) w (c :: cs) ∧ w.state = next ∧ Ready w kids :=
  ⟨_, goes_ignoreSpaces hv.state hc cs, hv.next, hv.ready.congr rfl rfl rfl rfl⟩

/-- A part that begins with `opening` in the state `st`, and ends with its stop. -/
theorem reads_until (st : S) (opening start stop : Str) (child : Str → Node) (hstop : stop ≠ [])
    (hread : ∀ parent w c cs, w.state = st → step T false parent w c cs = .ok (stepUntil stop child w c cs))
    (hopening : ∀ parent (w : Vars) r, w.state = .beginNode →
      Goes T parent w (opening ++ r) { w with state := st, start := start } r)
    (hspace : ∃ c cs, opening = c :: cs ∧ ¬ (c = '\n' ∨ c = '\r' ∨ c = '\t' ∨ c = ' ')) {s : Str} (hs : Stops stop s) :
    Reads T (opening ++ s ++ stop) (child (start ++ s)) := by
  intro parent v kids r hv
  obtain ⟨c, cs, hcs, hc⟩ := hspace
  obtain ⟨w, hbegin, hw, hready⟩ := hv.goes T parent hc (cs ++ (s ++ stop ++ r))
  have hopen := hopening parent w (s ++ stop ++ r) hw
  have hpart := goes_until T parent hstop (hread parent) (v := { w with state := st, start := start }) rfl hs r
  have hstr : opening ++ s ++ stop ++ r = c :: (cs ++ (s ++ stop ++ r)) := by simp [hcs]
  rw [hcs, List.cons_append] at hopen
  rw [hstr]
  refine ⟨_, ?_, hbegin.trans (hopen.trans hpart)⟩
  exact ⟨rfl, (hready.addChild _).congr rfl rfl rfl rfl⟩

theorem reads_cData {s : Str} (hs : Stops "]]>".toList s) : Reads T ("![CDATA[".toList ++ s ++ "]]>".toList) (.cData s) := by
  refine reads_until .cData "![CDATA[".toList [] "]]>".toList .cData (List.cons_ne_nil _ _) (fun parent w c cs hw => ?_)
    (fun parent w r hw => goes_step ?_) ⟨'!', _, rfl, by decide⟩ hs
  · simp only [step, hw]
  · simp only [step, hw]
    rfl

theorem reads_comment {s : Str} (hs : Stops "-->".toList s) : Reads T ("!--".toList ++ s ++ "-->".toList) (.comment s) := by
  refine reads_until .comment "!--".toList [] "-->".toList .comment (List.cons_ne_nil _ _) (fun parent w c cs hw => ?_)
    (fun parent w r hw => goes_step ?_) ⟨'!', _, rfl, by decide⟩ hs
  · simp only [step, hw]
  · simp only [step, hw]
    rfl

theorem reads_processingInstruction {s : Str} (hs : Stops "?>".toList s) :
    Reads T ("?".toList ++ s ++ "?>".toList) (.processingInstruction s) := by
  refine reads_until .header "?".toList ['?'] "?>".toList (fun s => .processingInstruction (s.drop 1)) (List.cons_ne_nil _ _) (fun parent w c cs hw => ?_) (fun parent w r hw => goes_step ?_) ⟨'?', _, rfl, by decide⟩ hs
  · simp only [step, hw]
  · simp only [step, hw]
    rfl

theorem reads_docType {s : Str} (hs : brackets 0 s = some 0) : Reads T ("!DOCTYPE ".toList ++ s ++ ['>']) (.docType s) := by
  intro parent v kids r hv
  obtain ⟨w, hbegin, hw, hready⟩ := hv.goes T parent (c := '!') (by decide)
    ("DOCTYPE ".toList ++ (s ++ '>' :: r))
  have hopen : Goes T parent w ('!' :: ("DOCTYPE ".toList ++ (s ++ '>' :: r))) (w.enter .docType) (s ++ '>' :: r) := by
    refine goes_step ?_
    simp only [step, hw]
    rfl
  have hpart := goes_docType T parent (v := w.enter .docType) rfl hready.nbrackets hs r
  have hstr : "!DOCTYPE ".toList ++ s ++ ['>'] ++ r = '!' :: ("DOCTYPE ".toList ++ (s ++ '>' :: r)) := by simp
  rw [hstr]
  refine ⟨_, ?_, hbegin.trans (hopen.trans hpart)⟩
  exact ⟨rfl, (hready.addChild _).congr rfl rfl rfl hready.nbrackets.symm⟩

/-! ## Elements -/

theorem goes_name (T : Target) (parent : Parent) {v : Vars} {kids : List Node} {name : Str} (hv : Awaits v .beginNode kids) (hname : IsName name) {d : Char}
    (hd : isValidChar d = false) (r : Str) :
    ∃ v', Awaits v' .body (.element name [] [] :: kids) ∧ Goes T parent v (name ++ d :: r) v' (d :: r) := by
  obtain ⟨c, cs, hcs, hc⟩ := hname.head
  obtain ⟨w, hbegin, hw, hready⟩ := hv.goes T parent (valid_not_space hc) (cs ++ d :: r)
  have hopen : Goes T parent w (name ++ d :: r) (w.enter .tagName) (name ++ d :: r) := by
    rw [hcs]
    refine goes_step ?_
    have hbang := valid_ne hc (d := '!') (by decide)
    have hquestion := valid_ne hc (d := '?') (by decide)
    have hslash := valid_ne hc (d := '/') (by decide)
    simp only [step, hw, stepBeginNode, if_neg hbang, if_neg hquestion, if_neg hslash]
    rfl
  have hreads : Goes T parent (w.enter .tagName) (name ++ d :: r) ((w.enter .tagName).reads name) (d :: r) :=
    goes_tagName rfl hname.2 _
  have hend : Goes T parent ((w.enter .tagName).reads name) (d :: r)
      ((((w.enter .tagName).reads name).addChild (.element name [] [])).ignoreSpaces .body) (d :: r) := by
    refine goes_step ?_
    rw [show step T false parent ((w.enter .tagName).reads name) d r = stepTagName ((w.enter .tagName).reads name) d r from rfl]
    simp only [stepTagName, hd, Bool.false_eq_true, if_false, show ((w.enter .tagName).reads name).start = name from rfl,
      hname.1]
  have hbegin : Goes T parent v (name ++ d :: r) w (name ++ d :: r) := by
    rw [hcs]
    exact hbegin
  refine ⟨_, ?_, hbegin.trans (hopen.trans (hreads.trans hend))⟩
  exact ⟨rfl, rfl, (hready.addChild _).congr rfl rfl rfl rfl⟩

/-- The beginning of an element, as far as its attributes. -/
theorem goes_opening (T : Target) (parent : Parent) {v : Vars} {kids : List Node} {name : Str} {attributes : List (Str × Str)}
    (hv : Awaits v .beginNode kids) (hname : IsName name) (hok : AttributesOk attributes) {d : Char}
    (hd : isValidChar d = false) (r : Str) :
    ∃ v', Awaits v' .body (.element name attributes [] :: kids) ∧
      Goes T parent v (name ++ attributes.flatMap writeAttribute ++ d :: r) v' (d :: r) := by
  have hhead : ∃ e es, attributes.flatMap writeAttribute ++ d :: r = e :: es ∧ isValidChar e = false := by
    cases attributes with
    | nil => exact ⟨d, r, rfl, hd⟩
    | cons attr attributes => exact ⟨' ', _, rfl, by decide⟩
  obtain ⟨e, es, hes, he⟩ := hhead
  obtain ⟨w, hw, hgo⟩ := goes_name T parent hv hname he es
  obtain ⟨v', hv', hgo'⟩ := goes_attributes T parent hw hok (d :: r)
  refine ⟨v', hv', ?_⟩
  rw [List.append_assoc, hes]
  rw [hes] at hgo'
  exact hgo.trans hgo'

/-- An element without children. -/
theorem reads_empty {name : Str} {attributes : List (Str × Str)} (hname : IsName name) (hok : AttributesOk attributes) :
    Reads T (name ++ attributes.flatMap writeAttribute ++ "/>".toList) (.element name attributes []) := by
  intro parent v kids r hv
  obtain ⟨w, hw, hgo⟩ := goes_opening T parent hv hname hok (d := '/') (by decide) ('>' :: r)
  obtain ⟨w', hbody, hstate, hready⟩ := hw.goes T parent (c := '/') (by decide) ('>' :: r)
  have hslash : Goes T parent w' ('/' :: '>' :: r) { w' with state := .waitEnd } ('>' :: r) :=
    goes_step (by simp [step, hstate])
  have hgt : Goes T parent { w' with state := .waitEnd } ('>' :: r) { w' with state := .begin } r :=
    goes_step (by simp [step])
  rw [List.append_assoc _ "/>".toList r]
  refine ⟨_, ?_, hgo.trans (hbody.trans (hslash.trans hgt))⟩
  exact ⟨rfl, hready.congr rfl rfl rfl rfl⟩

/-- An element without a child is given an empty text. -/
theorem yields_waitEndRet {parent : Parent} {v : Vars} {kids : List Node} (hv : v.state = .waitEndRet) (hready : Ready v kids)
    (r : Str) : Yields T parent v ('>' :: r) ((if kids = [] then [.pcData []] else kids).reverse, '>' :: r) := by
  have hret : Yields T parent v ('>' :: r)
      ((if v.nsubs = 0 then { v with kids := .pcData [] :: v.kids } else v : Vars).kids.reverse, '>' :: r) :=
    yields_return (by simp only [step, hv, if_true])
  rw [hready.nsubs, hready.kids] at hret
  cases kids with
  | nil => exact hret
  | cons node kids =>
    rw [List.length_cons, if_neg (Nat.succ_ne_zero _), hready.kids] at hret
    exact hret

/-- The end of an element. -/
theorem yields_close {v : Vars} {kids : List Node} {name : Str} (hv : Awaits v .beginNode kids) (hname : IsName name) (r : Str) :
    Yields T (.element name) v ('/' :: (name ++ '>' :: r))
      ((if kids = [] then [.pcData []] else kids).reverse, '>' :: r) := by
  obtain ⟨c, cs, hcs, hc⟩ := hname.head
  obtain ⟨w, hbegin, hw, hready⟩ := hv.goes T (.element name) (c := '/') (by decide) (name ++ '>' :: r)
  let w₁ : Vars := { w with start := [], state := .close, next := .close }
  have hslash : Goes T (.element name) w ('/' :: (name ++ '>' :: r)) w₁ (name ++ '>' :: r) := by
    have hstep : Goes T (.element name) w ('/' :: (name ++ '>' :: r)) ({ w with start := [] }.ignoreSpaces .close)
        (name ++ '>' :: r) := goes_step (by simp [step, hw, stepBeginNode])
    rw [hcs] at hstep ⊢
    exact hstep.trans (goes_ignoreSpaces rfl (valid_not_space hc) _)
  have hreads : Goes T (.element name) w₁ (name ++ '>' :: r) (w₁.reads name) ('>' :: r) := goes_close rfl hname.2 _
  have hend : Goes T (.element name) (w₁.reads name) ('>' :: r) { w₁.reads name with state := .waitEndRet, next := .waitEndRet }
      ('>' :: r) := by
    have hspaces : Goes T (.element name) ((w₁.reads name).ignoreSpaces .waitEndRet) ('>' :: r)
        { w₁.reads name with state := .waitEndRet, next := .waitEndRet } ('>' :: r) := goes_ignoreSpaces rfl (by decide) _
    refine .trans (goes_step ?_) hspaces
    rw [show step T false (.element name) (w₁.reads name) '>' r = stepClose (.element name) (w₁.reads name) '>' r from rfl]
    simp only [stepClose, show (w₁.reads name).start = name from rfl, hname.1, show isValidChar '>' = false by decide,
      Bool.false_eq_true, if_false, ne_eq, not_true]
  refine hbegin _ (hslash _ (hreads _ (hend _ ?_)))
  have hready' : Ready { w₁.reads name with state := .waitEndRet, next := .waitEndRet } kids := hready.congr rfl rfl rfl rfl
  exact yields_waitEndRet rfl hready' r

/-! ## All nodes -/

/-- Equal node by node; the attributes are those of equal maps. -/
inductive Node.Same : Node → Node → Prop where
  | element {name : Str} {attributes attributes' : List (Str × Str)} {children children' : List Node} :
      attributes.Perm attributes' → List.Forall₂ Node.Same children children' →
      (Node.element name attributes children).Same (.element name attributes' children')
  | pcData (v : Str) : (Node.pcData v).Same (.pcData v)
  | cData (v : Str) : (Node.cData v).Same (.cData v)
  | comment (v : Str) : (Node.comment v).Same (.comment v)
  | docType (v : Str) : (Node.docType v).Same (.docType v)
  | processingInstruction (v : Str) : (Node.processingInstruction v).Same (.processingInstruction v)

/-- The printer leaves nothing out: comments have no breaks, and an element with children is not taken for an empty one. -/
inductive Node.Whole : Node → Prop where
  | element {name : Str} {attributes : List (Str × Str)} {children : List Node} : (∀ child ∈ children, child.Whole) →
      (children ≠ [] → hasChildren children = true) → (Node.element name attributes children).Whole
  | pcData (v : Str) : (Node.pcData v).Whole
  | cData (v : Str) : (Node.cData v).Whole
  | comment {v : Str} : (∀ c ∈ v, isBreak c = false) → (Node.comment v).Whole
  | docType (v : Str) : (Node.docType v).Whole
  | processingInstruction (v : Str) : (Node.processingInstruction v).Whole

section Children

variable {keys : List (Str × Str) → List (Str × Str)}

/-- The printed node is read as an equal one. -/
def Printed (T : Target) (keys : List (Str × Str) → List (Str × Str)) (node : Node) : Prop :=
  ∃ text node', writeNode keys false [] node = '<' :: text ∧ node.Same node' ∧ Reads T text node'

theorem htmlEscape_head {s : Str} (hs : s ≠ []) : ∃ c cs, htmlEscape s false = c :: cs ∧ c ≠ '<' := by
  obtain ⟨d, ds, rfl⟩ := List.exists_cons_of_ne_nil hs
  rcases escapeChar_cases false d with ⟨e, hesc, _⟩ | ⟨hesc, _, hlt, _⟩
  · exact ⟨'&', e ++ [';'] ++ htmlEscape ds false, by simp [htmlEscape, hesc], by decide⟩
  · exact ⟨d, htmlEscape ds false, by simp [htmlEscape, hesc], hlt⟩

/-- A text begins. -/
theorem goes_enter (T : Target) (parent : Parent) {v : Vars} {s : Str} (hv : v.state = .begin) (hs : s ≠ []) (r : Str) :
    Goes T parent v (htmlEscape s false ++ r) (v.enter .pcData) (htmlEscape s false ++ r) := by
  obtain ⟨c, cs, hcs, hlt⟩ := htmlEscape_head hs
  rw [hcs]
  refine goes_step ?_
  simp only [step, hv, if_neg hlt]
  rfl

/-- A text up to the next node. -/
theorem goes_text (T : Target) (parent : Parent) {v : Vars} {kids : List Node} {s : Str} (hv : Begins v kids) (hs : s ≠ [])
    (r : Str) :
    ∃ v', Awaits v' .beginNode (.pcData s :: kids) ∧ Goes T parent v (htmlEscape s false ++ '<' :: r) v' r := by
  obtain ⟨hstate, hready⟩ := hv
  have hbegin : Goes T parent v (htmlEscape s false ++ '<' :: r) (v.enter .pcData) (htmlEscape s false ++ '<' :: r) :=
    goes_enter T parent hstate hs _
  obtain ⟨w, hw, hread⟩ := goes_pcData T parent (v := v.enter .pcData) rfl s ('<' :: r)
  have hend : Goes T parent w ('<' :: r) ({ w.addChild (.pcData w.text) with buf := [] }.ignoreSpaces .beginNode) r := by
    refine goes_step ?_
    simp only [step, hw.state, Vars.enter, stepPCData, if_true]
    rfl
  have htext : w.text = s := by
    rw [hw.text]
    simp [Vars.text, Vars.enter, hready.buf]
  rw [htext] at hend
  refine ⟨_, ?_, hbegin.trans (hread.trans hend)⟩
  exact ⟨rfl, rfl, congrArg (_ :: ·) (hw.kids.trans hready.kids), congrArg (· + 1) (hw.nsubs.trans hready.nsubs), rfl,
    hw.nbrackets.trans hready.nbrackets⟩

/-- The printed nodes, with `<` after them, are read as `nodes'`: where the parser begins, and where it has read the `<` of
the first of them. -/
structure ReadsAll (T : Target) (keys : List (Str × Str) → List (Str × Str)) (nodes nodes' : List Node) : Prop where
  same : List.Forall₂ Node.Same nodes nodes'
  begin_ (parent : Parent) {v : Vars} {kids : List Node} (r : Str) : Begins v kids →
    ∃ v', Awaits v' .beginNode (nodes'.reverse ++ kids) ∧
      Goes T parent v (writeNodes keys false [] nodes ++ '<' :: r) v' r
  beginNode (parent : Parent) {v : Vars} {kids : List Node} {r s : Str} : Awaits v .beginNode kids →
    writeNodes keys false [] nodes ++ '<' :: r = '<' :: s → (∀ node ∈ nodes.head?, ¬ node.IsText) →
    ∃ v', Awaits v' .beginNode (nodes'.reverse ++ kids) ∧ Goes T parent v s v' r

theorem goes_lt (parent : Parent) {v : Vars} {kids : List Node} (hv : Begins v kids) (r : Str) :
    ∃ v', Awaits v' .beginNode kids ∧ Goes T parent v ('<' :: r) v' r :=
  ⟨v.ignoreSpaces .beginNode, ⟨rfl, rfl, hv.ready.congr rfl rfl rfl rfl⟩, goes_step (by simp [step, hv.state])⟩

theorem readsAll_nil (keys : List (Str × Str) → List (Str × Str)) : ReadsAll T keys [] [] where
  same := .nil
  begin_ parent _ _ r hv := goes_lt parent hv r
  beginNode parent v kids r s hv hs _ := by
    obtain rfl : r = s := (List.cons.inj hs).2
    exact ⟨v, hv, .refl v r⟩

theorem writeNode_text {s : Str} (hs : s ≠ []) : writeNode keys false [] (.pcData s) = htmlEscape s false := by
  cases s with
  | nil => exact absurd rfl hs
  | cons c s =>
    rw [writeNode_pcData]
    simp only [List.isEmpty_cons, Bool.false_eq_true, if_false, newline, List.nil_append, List.append_nil]

theorem readsAll_node {node : Node} {nodes nodes' : List Node} (hnode : Printed T keys node)
    (hall : ReadsAll T keys nodes nodes') : ∃ node', ReadsAll T keys (node :: nodes) (node' :: nodes') := by
  obtain ⟨text, node', htext, hsame, hreads⟩ := hnode
  have hfrom (parent : Parent) {v : Vars} {kids : List Node} (r : Str) (hv : Awaits v .beginNode kids) :
      ∃ v', Awaits v' .beginNode ((node' :: nodes').reverse ++ kids) ∧
        Goes T parent v (text ++ (writeNodes keys false [] nodes ++ '<' :: r)) v' r := by
    obtain ⟨w, hw, hgo⟩ := hreads parent v kids (writeNodes keys false [] nodes ++ '<' :: r) hv
    obtain ⟨v', hv', hgo'⟩ := hall.begin_ parent r hw
    refine ⟨v', ?_, hgo.trans hgo'⟩
    rw [List.reverse_cons, List.append_assoc]
    exact hv'
  have hstr (r : Str) : writeNodes keys false [] (node :: nodes) ++ '<' :: r =
      '<' :: (text ++ (writeNodes keys false [] nodes ++ '<' :: r)) := by
    simp [writeNodes_cons, htext]
  refine ⟨node', .cons hsame hall.same, fun parent v kids r hv => ?_, fun parent v kids r s hv hs _ => ?_⟩
  · obtain ⟨w, hw, hgo⟩ := goes_lt parent hv (text ++ (writeNodes keys false [] nodes ++ '<' :: r))
    obtain ⟨v', hv', hgo'⟩ := hfrom parent r hw
    rw [hstr]
    exact ⟨v', hv', hgo.trans hgo'⟩
  · rw [hstr] at hs
    obtain rfl := (List.cons.inj hs).2
    exact hfrom parent r hv

theorem readsAll_text {s : Str} {nodes nodes' : List Node} (hs : s ≠ []) (hn : ∀ node ∈ nodes.head?, ¬ node.IsText)
    (hall : ReadsAll T keys nodes nodes') (hlt : ∀ r, ∃ s, writeNodes keys false [] nodes ++ '<' :: r = '<' :: s) :
    ReadsAll T keys (.pcData s :: nodes) (.pcData s :: nodes') := by
  refine ⟨.cons (.pcData s) hall.same, fun parent v kids r hv => ?_, fun parent v kids r t hv _ h => ?_⟩
  · obtain ⟨t, ht⟩ := hlt r
    obtain ⟨w, hw, hgo⟩ := goes_text T parent hv hs t
    obtain ⟨v', hv', hgo'⟩ := hall.beginNode parent hw ht hn
    have hstr : writeNodes keys false [] (.pcData s :: nodes) ++ '<' :: r = htmlEscape s false ++ '<' :: t := by
      rw [writeNodes_cons, writeNode_text hs, List.append_assoc, ht]
    rw [hstr, List.reverse_cons, List.append_assoc]
    exact ⟨v', hv', hgo.trans hgo'⟩
  · exact absurd trivial (h _ rfl)

theorem readsAll {nodes : List Node} (hsep : Separate nodes) (hp : ∀ node ∈ nodes, ¬ node.IsText → Printed T keys node) :
    ∃ nodes', ReadsAll T keys nodes nodes' := by
  induction nodes with
  | nil => exact ⟨[], readsAll_nil keys⟩
  | cons node nodes ih =>
    obtain ⟨hchain, hne⟩ := hsep
    rw [List.isChain_cons] at hchain
    obtain ⟨nodes', hall⟩ := ih ⟨hchain.2, fun h => hne (List.mem_cons_of_mem _ h)⟩
      fun n hn => hp n (List.mem_cons_of_mem _ hn)
    by_cases htext : node.IsText
    · cases node with
      | pcData s =>
        have hs : s ≠ [] := by
          rintro rfl
          exact hne List.mem_cons_self
        have hn : ∀ n ∈ nodes.head?, ¬ n.IsText := fun n hn h => hchain.1 n hn ⟨trivial, h⟩
        refine ⟨_, readsAll_text hs hn hall fun r => ?_⟩
        cases nodes with
        | nil => exact ⟨r, rfl⟩
        | cons n ns =>
          obtain ⟨text, _, htext, _⟩ := hp n (by simp) (hn n rfl)
          exact ⟨text ++ writeNodes keys false [] ns ++ '<' :: r, by simp [writeNodes_cons, htext]⟩
      | _ => exact absurd htext id
    · obtain ⟨node', h⟩ := readsAll_node (hp node List.mem_cons_self htext) hall
      exact ⟨_, h⟩

/-- An element whose children are read by a call of the parser. -/
theorem reads_element {name inner : Str} {attributes : List (Str × Str)} {children : List Node} (hname : IsName name)
    (hok : AttributesOk attributes)
    (hinner : ∀ r, Yields T (.element name) .init (inner ++ '<' :: '/' :: (name ++ '>' :: r)) (children, '>' :: r)) :
    Reads T (name ++ attributes.flatMap writeAttribute ++ '>' :: (inner ++ '<' :: '/' :: (name ++ ['>'])))
      (.element name attributes children) := by
  intro parent v kids r hv
  have hstr : name ++ attributes.flatMap writeAttribute ++ '>' :: (inner ++ '<' :: '/' :: (name ++ ['>'])) ++ r =
      name ++ attributes.flatMap writeAttribute ++ '>' :: (inner ++ '<' :: '/' :: (name ++ '>' :: r)) := by simp
  rw [hstr]
  have hrest : ∃ c cs, inner ++ '<' :: '/' :: (name ++ '>' :: r) = c :: cs := List.exists_cons_of_ne_nil (by simp)
  obtain ⟨c, cs, hcs⟩ := hrest
  obtain ⟨w, hw, hopen⟩ := goes_opening T parent hv hname hok (d := '>') (by decide) (inner ++ '<' :: '/' :: (name ++ '>' :: r))
  obtain ⟨w', hbody, hstate, hready⟩ := hw.goes T parent (c := '>') (by decide) (inner ++ '<' :: '/' :: (name ++ '>' :: r))
  have hgt : Goes T parent w' ('>' :: (inner ++ '<' :: '/' :: (name ++ '>' :: r))) { w' with state := .childs }
      (inner ++ '<' :: '/' :: (name ++ '>' :: r)) := goes_step (by simp [step, hstate])
  have hkids : w'.kids = .element name attributes [] :: kids := hready.kids
  have hdescend : Goes T parent { w' with state := .childs } (c :: cs)
      { ({ w' with state := .childs } : Vars).setChildren children with state := .begin } r := by
    refine goes_descend ('>' :: r) rfl ?_
    rw [show ({ w' with state := .childs } : Vars).nodeName = name by simp only [Vars.nodeName, hkids], ← hcs]
    exact hinner r
  rw [← hcs] at hdescend
  refine ⟨_, ?_, hopen.trans (hbody.trans (hgt.trans hdescend))⟩
  have hset : ({ w' with state := .childs } : Vars).setChildren children =
      { w' with state := .childs, kids := .element name attributes children :: kids } := by
    simp only [Vars.setChildren, hkids]
  rw [hset]
  exact ⟨rfl, hready.replace rfl rfl hready.buf hready.nbrackets⟩

theorem AttributesOk.perm {attributes attributes' : List (Str × Str)} (h : AttributesOk attributes)
    (hp : attributes'.Perm attributes) : AttributesOk attributes' :=
  ⟨fun a ha => h.names a (hp.mem_iff.1 ha), (hp.map Prod.fst).nodup_iff.2 h.nodup⟩

/-- What is read of the children of an element. -/
theorem yields_children {name : Str} {children children' : List Node} (hname : IsName name)
    (hall : ReadsAll T keys children children') (r : Str) :
    Yields T (.element name) .init (writeNodes keys false [] children ++ '<' :: '/' :: (name ++ '>' :: r))
      ((if children' = [] then [.pcData []] else children'), '>' :: r) := by
  obtain ⟨w, hw, hgo⟩ := hall.begin_ (.element name) ('/' :: (name ++ '>' :: r)) begins_init
  have hclose := hgo _ (yields_close (T := T) hw hname r)
  rw [List.append_nil] at hclose
  convert hclose using 2
  cases children' with
  | nil => rfl
  | cons node nodes => simp

theorem children_read {name : Str} {children : List Node} (hname : IsName name) (hne : children ≠ [])
    (htexts : children = [.pcData []] ∨ Separate children) (hp : ∀ child ∈ children, ¬ child.IsText → Printed T keys child) :
    ∃ children', List.Forall₂ Node.Same children children' ∧ ∀ r, Yields T (.element name) .init
      (writeNodes keys false [] children ++ '<' :: '/' :: (name ++ '>' :: r)) (children', '>' :: r) := by
  rcases htexts with rfl | hsep
  · refine ⟨[.pcData []], .cons (.pcData []) .nil, fun r => ?_⟩
    have h := yields_children (T := T) hname (readsAll_nil keys) r
    rw [if_pos rfl] at h
    exact h
  · obtain ⟨children', hall⟩ := readsAll hsep hp
    refine ⟨children', hall.same, fun r => ?_⟩
    have h := yields_children hname hall r
    have hne' : children' ≠ [] := by
      rintro rfl
      cases hall.same
      exact hne rfl
    rwa [if_neg hne'] at h

theorem writeComment_eq {v : Str} (hv : ∀ c ∈ v, isBreak c = false) : writeComment v = '<' :: ("!--".toList ++ v ++ "-->".toList) := by
  have hfilter : v.filter (!isBreak ·) = v := List.filter_eq_self.2 fun c hc => by simp [hv c hc]
  unfold writeComment
  rw [hfilter]
  have hr : rtrim ("<!--".toList ++ v ++ "-->".toList) = "<!--".toList ++ v ++ "-->".toList := by
    simp [rtrim, isSpace]
  unfold trim
  rw [hr]
  simp [ltrim, isSpace]

theorem printed {node : Node} (hkeys : ∀ l, (keys l).Perm l) (hok : node.Ok) (hwhole : node.Whole) (hn : ¬ node.IsText) :
    Printed T keys node := by
  induction hok with
  | @element name attributes children hname hattributes hok htexts ih =>
    cases hwhole with
    | element hwhole hhas =>
      have hkok := hattributes.perm (hkeys attributes)
      by_cases hempty : children = []
      · subst hempty
        refine ⟨_, .element name (keys attributes) [], ?_, .element (hkeys attributes).symm .nil, reads_empty hname hkok⟩
        rw [writeNode_element]
        simp [hasChildren, newline]
      · obtain ⟨children', hsame, hyields⟩ := children_read hname hempty htexts fun child hc hn => ih child hc (hwhole child hc) hn
        refine ⟨_, .element name (keys attributes) children', ?_, .element (hkeys attributes).symm hsame,
          reads_element hname hkok hyields⟩
        rw [writeNode_element, if_pos (hhas hempty)]
        simp [newline]
  | pcData v => exact absurd trivial hn
  | cData hs => exact ⟨_, _, by rw [writeNode_cData]; simp [newline], .cData _, reads_cData hs⟩
  | comment hs =>
    cases hwhole with
    | comment hbreaks =>
      refine ⟨_, _, ?_, .comment _, reads_comment hs⟩
      rw [writeNode_comment, writeComment_eq hbreaks]
      simp [newline]
  | docType hs => exact ⟨_, _, by rw [writeNode_docType]; simp [newline], .docType _, reads_docType hs⟩
  | processingInstruction hs =>
    exact ⟨_, _, by rw [writeNode_processingInstruction]; simp [newline], .processingInstruction _, reads_processingInstruction hs⟩

end Children

end EvilHaxe.Xml
