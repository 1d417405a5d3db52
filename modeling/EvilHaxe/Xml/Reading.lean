/-
The parser, not strict, over a text of known form: a name, an escaped text, an attribute, a part that ends with its stop.
What a run comes to is the same for all fuel above some bound, so that runs put together are runs.
-/
import EvilHaxe.Xml.Parsed

namespace EvilHaxe.Xml

variable {T : Target} {parent : Parent}

/-! ## Runs -/

/-- With enough fuel, the parser comes to `res`. -/
def Yields (T : Target) (parent : Parent) (v : Vars) (str : Str) (res : List Node × Str) : Prop :=
  ∃ n₀, ∀ n ≥ n₀, doParse T false n parent v str = .ok res

/-- What the parser comes to from the second place it comes to from the first. -/
def Goes (T : Target) (parent : Parent) (v : Vars) (str : Str) (v' : Vars) (str' : Str) : Prop :=
  ∀ res, Yields T parent v' str' res → Yields T parent v str res

theorem Goes.refl (v : Vars) (str : Str) : Goes T parent v str v str := fun _ h => h

theorem Goes.trans {v₁ v₂ v₃ : Vars} {s₁ s₂ s₃ : Str} (h₁ : Goes T parent v₁ s₁ v₂ s₂) (h₂ : Goes T parent v₂ s₂ v₃ s₃) :
    Goes T parent v₁ s₁ v₃ s₃ := fun res h => h₁ res (h₂ res h)

theorem goes_step {v v' : Vars} {c : Char} {cs rest : Str} (h : step T false parent v c cs = .ok (.loop v' rest)) :
    Goes T parent v (c :: cs) v' rest := by
  rintro res ⟨n₀, hn⟩
  refine ⟨n₀ + 1, fun n hle => ?_⟩
  obtain ⟨m, rfl⟩ : ∃ m, n = m + 1 := ⟨n - 1, by omega⟩
  simp only [doParse, h, bind, Except.bind]
  exact hn m (by omega)

theorem yields_return {v v' : Vars} {c : Char} {cs : Str} (h : step T false parent v c cs = .ok (.return v')) :
    Yields T parent v (c :: cs) (v'.kids.reverse, c :: cs) := by
  refine ⟨1, fun n hle => ?_⟩
  obtain ⟨m, rfl⟩ : ∃ m, n = m + 1 := ⟨n - 1, by omega⟩
  simp only [doParse, h, bind, Except.bind, pure, Except.pure]

theorem yields_finish {v v' : Vars} (h : finish false parent v = .ok v') : Yields T parent v [] (v'.kids.reverse, []) := by
  refine ⟨1, fun n hle => ?_⟩
  obtain ⟨m, rfl⟩ : ∃ m, n = m + 1 := ⟨n - 1, by omega⟩
  simp only [doParse, h, bind, Except.bind, pure, Except.pure]

/-- The call for the children of an element. -/
theorem goes_descend {v : Vars} {c : Char} {cs : Str} (rest : Str) {children : List Node} (hstate : v.state = .childs)
    (h : Yields T (.element v.nodeName) .init (c :: cs) (children, rest)) :
    Goes T parent v (c :: cs) { v.setChildren children with state := .begin } (rest.drop 1) := by
  obtain ⟨n₁, h₁⟩ := h
  rintro res ⟨n₂, h₂⟩
  have hstep : step T false parent v c cs = .ok .descend := by simp only [step, hstate]
  refine ⟨max n₁ n₂ + 1, fun n hle => ?_⟩
  obtain ⟨m, rfl⟩ : ∃ m, n = m + 1 := ⟨n - 1, by omega⟩
  simp only [doParse, hstep, bind, Except.bind]
  rw [h₁ m (by omega)]
  exact h₂ m (by omega)

/-! ## Reading -/

def Vars.reads (v : Vars) (s : Str) : Vars := { v with start := v.start ++ s }

theorem reads_cons (v : Vars) (c : Char) (s : Str) : (v.read c).reads s = v.reads (c :: s) := by
  simp [Vars.read, Vars.reads]

theorem reads_nil (v : Vars) : v.reads [] = v := by simp [Vars.reads]

/-- Characters that the state takes one by one. -/
theorem goes_reads (st : S) (ok : Char → Prop)
    (hread : ∀ w c cs, w.state = st → ok c → step T false parent w c cs = .ok (.loop (w.read c) cs)) {v : Vars}
    (hv : v.state = st) {s : Str} (hs : ∀ c ∈ s, ok c) (r : Str) : Goes T parent v (s ++ r) (v.reads s) r := by
  induction s generalizing v with
  | nil =>
    rw [reads_nil]
    exact .refl v r
  | cons c s ih =>
    rw [← reads_cons]
    exact (goes_step (hread v c _ hv (hs c List.mem_cons_self))).trans (ih hv fun d hd => hs d (List.mem_cons_of_mem _ hd))

theorem goes_tagName {v : Vars} (hv : v.state = .tagName) {s : Str} (hs : ∀ c ∈ s, isValidChar c = true) (r : Str) :
    Goes T parent v (s ++ r) (v.reads s) r :=
  goes_reads _ _ (fun w c cs hw hc => by simp only [step, hw, stepTagName, hc, if_true]) hv hs r

theorem goes_attribName {v : Vars} (hv : v.state = .attribName) {s : Str} (hs : ∀ c ∈ s, isValidChar c = true) (r : Str) :
    Goes T parent v (s ++ r) (v.reads s) r :=
  goes_reads _ _ (fun w c cs hw hc => by simp only [step, hw, stepAttribName, hc, if_true]) hv hs r

theorem goes_close {v : Vars} (hv : v.state = .close) {s : Str} (hs : ∀ c ∈ s, isValidChar c = true) (r : Str) :
    Goes T parent v (s ++ r) (v.reads s) r :=
  goes_reads _ _ (fun w c cs hw hc => by simp only [step, hw, stepClose, hc, if_true]) hv hs r

/-- No space is left out before a character that is none. -/
theorem goes_ignoreSpaces {v : Vars} (hv : v.state = .ignoreSpaces) {c : Char}
    (hc : ¬ (c = '\n' ∨ c = '\r' ∨ c = '\t' ∨ c = ' ')) (cs : Str) :
    Goes T parent v (c :: cs) { v with state := v.next } (c :: cs) :=
  goes_step (by simp only [step, hv, if_neg hc])

/-- A character of a name is no other character that the parser knows. -/
theorem IsName.head {s : Str} (hs : IsName s) : ∃ c cs, s = c :: cs ∧ isValidChar c = true := by
  obtain ⟨c, cs, rfl⟩ := List.exists_cons_of_ne_nil hs.1
  exact ⟨c, cs, rfl, hs.2 c List.mem_cons_self⟩

theorem valid_ne {c d : Char} (hc : isValidChar c = true) (hd : isValidChar d = false) : c ≠ d := by
  rintro rfl
  exact Bool.false_ne_true (hd.symm.trans hc)

theorem valid_not_space {c : Char} (hc : isValidChar c = true) : ¬ (c = '\n' ∨ c = '\r' ∨ c = '\t' ∨ c = ' ') := by
  rintro (h | h | h | h)
  all_goals exact valid_ne hc (by decide) h

/-! ## Parts that end with their stop -/

theorem Stops.tail {stop s : Str} {c : Char} (hs : Stops stop (c :: s)) : Stops stop s :=
  fun a b hab hb => hs (c :: a) b (congrArg (c :: ·) hab) hb

theorem goes_until (T : Target) (parent : Parent) {st : S} {stop : Str} {child : Str → Node} (hstop : stop ≠ [])
    (hread : ∀ w c cs, w.state = st → step T false parent w c cs = .ok (stepUntil stop child w c cs)) {v : Vars}
    (hv : v.state = st) {s : Str} (hs : Stops stop s) (r : Str) :
    Goes T parent v (s ++ stop ++ r) { (v.reads s).addChild (child (v.start ++ s)) with state := .begin } r := by
  induction s generalizing v with
  | nil =>
    obtain ⟨c, cs, rfl⟩ := List.exists_cons_of_ne_nil hstop
    refine goes_step ?_
    have hpre : (c :: cs).isPrefixOf (c :: (cs ++ r)) = true := List.isPrefixOf_iff_prefix.2 ⟨r, rfl⟩
    rw [hread v c _ hv]
    simp only [stepUntil, List.append_eq, hpre, if_true]
    simp [Vars.reads]
  | cons c s ih =>
    have hno : ¬ stop.isPrefixOf (c :: (s ++ stop ++ r)) = true := by
      intro h
      refine hs [] (c :: s) rfl (List.cons_ne_nil _ _) ?_
      refine List.prefix_of_prefix_length_le (List.isPrefixOf_iff_prefix.1 h) ⟨r, ?_⟩ ?_
      · simp
      · simp only [List.length_append, List.length_cons]
        omega
    have hgo : Goes T parent v (c :: (s ++ stop ++ r)) (v.read c) (s ++ stop ++ r) := by
      refine goes_step ?_
      rw [hread v c _ hv]
      simp only [stepUntil, if_neg hno]
    have h := hgo.trans (ih (v := v.read c) hv hs.tail)
    rw [reads_cons] at h
    simpa [Vars.read] using h

theorem goes_docType (T : Target) (parent : Parent) {v : Vars} {n : Int} (hv : v.state = .docType) (hn : v.nbrackets = n) {s : Str}
    (hs : brackets n s = some 0) (r : Str) : Goes T parent v (s ++ '>' :: r)
      { (v.reads s).addChild (.docType (v.start ++ s)) with state := .begin, nbrackets := 0 } r := by
  induction s generalizing v n with
  | nil =>
    obtain rfl : n = 0 := Option.some.inj hs
    refine goes_step ?_
    simp [step, hv, stepDocType, hn, Vars.reads, Vars.addChild]
  | cons c s ih =>
    unfold brackets at hs
    have hgo : ∃ m, brackets m s = some 0 ∧
        Goes T parent v (c :: (s ++ '>' :: r)) { v.read c with nbrackets := m } (s ++ '>' :: r) := by
      split_ifs at hs with hopen hclose hend
      · refine ⟨n + 1, hs, goes_step ?_⟩
        simp only [step, hv, stepDocType, if_pos hopen, hn]
      · refine ⟨n - 1, hs, goes_step ?_⟩
        simp only [step, hv, stepDocType, if_neg hopen, if_pos hclose, hn]
      · refine ⟨n, hs, goes_step ?_⟩
        simp only [step, hv, stepDocType, if_neg hopen, if_neg hclose, hn, if_neg hend]
        rw [← hn]
        rfl
    obtain ⟨m, hm, hgo⟩ := hgo
    have h := hgo.trans (ih (v := { v.read c with nbrackets := m }) hv rfl hm)
    simpa [Vars.read, Vars.reads, Vars.addChild] using h

/-! ## Escaped texts -/

theorem goes_entity (T : Target) (parent : Parent) {v : Vars} (hv : v.state = .escape) {e t : Str} (he : ∀ c ∈ e, isValidChar c = true ∨ c = '#')
    (ht : entity T (v.start ++ e) = some t) (r : Str) :
    Goes T parent v (e ++ ';' :: r) { v.enter v.escapeNext with buf := v.buf ++ t } r := by
  have hreads : Goes T parent v (e ++ ';' :: r) (v.reads e) (';' :: r) := by
    refine goes_reads .escape (fun c => isValidChar c = true ∨ c = '#') ?_ hv he (';' :: r)
    intro w c cs hw hc
    have hne : c ≠ ';' := by
      rintro rfl
      exact absurd hc (by decide)
    have hgo : ¬ (!isValidChar c && c ≠ '#') = true := by
      rcases hc with hc | hc <;> simp [hc]
    simp only [step, hw, stepEscape, if_neg hne, if_neg hgo]
  refine hreads.trans (goes_step ?_)
  rw [show step T false parent (v.reads e) ';' r = stepEscape T false (v.reads e) ';' r by
    simp only [step, show (v.reads e).state = .escape from hv]]
  simp only [stepEscape, if_true, show (v.reads e).start = v.start ++ e from rfl, ht]
  rfl

theorem valid_of_all {e : Str} (h : (e.all fun d => isValidChar d || d == '#') = true) :
    ∀ d ∈ e, isValidChar d = true ∨ d = '#' := by
  intro d hd
  simpa using List.all_eq_true.1 h d hd

/-- The entities of `htmlEscape`. -/
theorem escapeChar_cases (quotes : Bool) (c : Char) :
    (∃ e, escapeChar quotes c = ['&'] ++ e ++ [';'] ∧ (∀ d ∈ e, isValidChar d = true ∨ d = '#') ∧
        ∀ T, entity T e = some [c]) ∨
      escapeChar quotes c = [c] ∧ c ≠ '&' ∧ c ≠ '<' ∧ (quotes = true → c ≠ '"') := by
  unfold escapeChar
  split_ifs with hamp hlt hgt hquot hapos
  · exact .inl ⟨"amp".toList, rfl, valid_of_all rfl, fun _ => by subst hamp; rfl⟩
  · exact .inl ⟨"lt".toList, rfl, valid_of_all rfl, fun _ => by subst hlt; rfl⟩
  · exact .inl ⟨"gt".toList, rfl, valid_of_all rfl, fun _ => by subst hgt; rfl⟩
  · exact .inl ⟨"quot".toList, rfl, valid_of_all rfl, fun _ => by rw [hquot.1]; rfl⟩
  · refine .inl ⟨"#039".toList, rfl, valid_of_all rfl, fun T => ?_⟩
    have h : T.addChar (some 39) = ['\''] := T.addChar_ascii '\'' (by decide)
    rw [hapos.1]
    exact congrArg some h
  · exact .inr ⟨rfl, hamp, hlt, fun hq hc => hquot ⟨hc, hq⟩⟩

/-- What is read of a text so far. -/
def Vars.text (v : Vars) : Str := v.buf ++ v.start

/-- The text has been read as far as `s`, and nothing else has changed, but for the state after an entity. -/
structure TextRead (v v' : Vars) (s : Str) : Prop where
  state : v'.state = v.state
  text : v'.text = v.text ++ s
  kids : v'.kids = v.kids
  nsubs : v'.nsubs = v.nsubs
  nbrackets : v'.nbrackets = v.nbrackets
  aname : v'.aname = v.aname
  attrValQuote : v'.attrValQuote = v.attrValQuote

/-- An escaped text is read back. It does not end within an entity, and the current part is empty only after one. -/
theorem goes_escaped (T : Target) (parent : Parent) {quotes : Bool} {v : Vars}
    (hread : ∀ w c cs, w.state = v.state → w.attrValQuote = v.attrValQuote → c ≠ '&' → c ≠ '<' → (quotes = true → c ≠ '"') →
      step T false parent w c cs = .ok (.loop (w.read c) cs))
    (hamp : ∀ w cs, w.state = v.state → step T false parent w '&' cs =
      .ok (.loop { w.enter .escape with buf := w.buf ++ w.start, escapeNext := v.state } cs)) (s r : Str) :
    ∃ v', TextRead v v' s ∧ Goes T parent v (htmlEscape s quotes ++ r) v' r := by
  induction s generalizing v with
  | nil => exact ⟨v, ⟨rfl, (List.append_nil _).symm, rfl, rfl, rfl, rfl, rfl⟩, .refl v r⟩
  | cons c s ih =>
    have hstep : ∃ w, TextRead v w [c] ∧
        Goes T parent v (escapeChar quotes c ++ (htmlEscape s quotes ++ r)) w (htmlEscape s quotes ++ r) := by
      rcases escapeChar_cases quotes c with ⟨e, hesc, he, hent⟩ | ⟨hesc, hna, hnl, hnq⟩
      · have hgo := goes_entity T parent (t := [c])
          (v := { v.enter .escape with buf := v.buf ++ v.start, escapeNext := v.state }) rfl he (hent T)
          (htmlEscape s quotes ++ r)
        have hstr : escapeChar quotes c ++ (htmlEscape s quotes ++ r) = '&' :: (e ++ ';' :: (htmlEscape s quotes ++ r)) := by
          rw [hesc]
          simp
        rw [hstr]
        refine ⟨_, ?_, (goes_step (hamp v _ rfl)).trans hgo⟩
        exact ⟨rfl, by simp [Vars.text, Vars.enter], rfl, rfl, rfl, rfl, rfl⟩
      · rw [hesc]
        refine ⟨v.read c, ⟨rfl, ?_, rfl, rfl, rfl, rfl, rfl⟩, goes_step (hread v c _ rfl rfl hna hnl hnq)⟩
        simp [Vars.text, Vars.read]
    obtain ⟨w, hw, hgo⟩ := hstep
    obtain ⟨v', hv', hgo'⟩ := ih (v := w) (by rw [hw.state, hw.attrValQuote]; exact hread) (by rw [hw.state]; exact hamp)
    refine ⟨v', ⟨hv'.state.trans hw.state, ?_, hv'.kids.trans hw.kids, hv'.nsubs.trans hw.nsubs,
      hv'.nbrackets.trans hw.nbrackets, hv'.aname.trans hw.aname, hv'.attrValQuote.trans hw.attrValQuote⟩, ?_⟩
    · rw [hv'.text, hw.text, List.append_assoc]
      rfl
    · have hsplit : htmlEscape (c :: s) quotes ++ r = escapeChar quotes c ++ (htmlEscape s quotes ++ r) := by
        simp [htmlEscape]
      rw [hsplit]
      exact hgo.trans hgo'

theorem goes_pcData (T : Target) (parent : Parent) {v : Vars} (hv : v.state = .pcData) (s r : Str) :
    ∃ v', TextRead v v' s ∧ Goes T parent v (htmlEscape s false ++ r) v' r := by
  refine goes_escaped T parent (fun w c cs hw _ hna hnl _ => ?_) (fun w cs hw => ?_) s r
  · simp only [step, hw.trans hv, stepPCData, if_neg hna, if_neg hnl]
  · simp [step, hw.trans hv, stepPCData, hv]

theorem goes_attribVal (T : Target) (parent : Parent) {v : Vars} (hv : v.state = .attribVal) (hq : v.attrValQuote = some '"') (s r : Str) :
    ∃ v', TextRead v v' s ∧ Goes T parent v (htmlEscape s true ++ r) v' r := by
  refine goes_escaped T parent (fun w c cs hw hwq hna hnl hnq => ?_) (fun w cs hw => ?_) s r
  · have hne : some c ≠ w.attrValQuote := by
      rw [hwq, hq]
      exact fun h => hnq rfl (Option.some.inj h)
    simp only [step, hw.trans hv, stepAttribVal, if_neg hna, Bool.false_eq_true, and_false, if_false, if_neg hne]
  · simp [step, hw.trans hv, stepAttribVal, hv]

end EvilHaxe.Xml
