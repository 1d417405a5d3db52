/-
The number loop: the flags as a summary of what has been read, and the numbers that the loop takes.
-/
import EvilHaxe.Json.Grammar

namespace EvilHaxe.Json

variable {F : Type}

/-- No number goes on at the head of `s`. -/
def Stops (s : Str) : Prop := ∀ c ∈ s.head?, isNumberChar c = false

theorem isNumberChar_digit {c : Nat} (h : isDigit c = true) : isNumberChar c = true := by
  simp [isNumberChar, h]

/-- The cases of the loop. -/
theorem isNumberChar_cases {c : Nat} (h : isNumberChar c = true) :
    isDigit c = true ∨ c = '.'.toNat ∨ IsExp c ∨ IsSign c := by
  simp only [isNumberChar, Bool.or_eq_true, beq_iff_eq] at h
  unfold IsExp IsSign
  tauto

theorem digits_nil : Digits [] := by simp [Digits]

theorem Digits.append {ds : Str} {d : Nat} (h : Digits ds) (hd : isDigit d = true) : Digits (ds ++ [d]) := by
  intro x hx
  rcases List.mem_append.mp hx with hx | hx
  · exact h x hx
  · rw [List.mem_singleton.mp hx]; exact hd

@[simp] theorem isEmpty_concat (ds : Str) (d : Nat) : (ds ++ [d]).isEmpty = false := by
  cases ds <;> rfl

namespace NumberState

/-! ## One character -/

/-- The state in the integer, and what it says of the integer. -/
def inInt (zero : Bool) : NumberState :=
  { minus := false, digit := true, zero := zero, point := false, e := false, pm := false }

def inFrac (zero digit : Bool) : NumberState :=
  { minus := false, digit := digit, zero := zero, point := true, e := false, pm := false }

def inExp (point digit pm : Bool) : NumberState :=
  { minus := false, digit := digit, zero := false, point := point, e := true, pm := pm }

def afterMinus : NumberState :=
  { minus := true, digit := false, zero := false, point := false, e := false, pm := false }

theorem step_digit {st : NumberState} {c : Nat} (hc : isDigit c = true) :
    st.step c = if st.zero = true ∧ st.point = false then none
      else some { st with
        minus := false, digit := true,
        zero := if c = '0'.toNat then st.zero || st.minus else false } := by
  unfold step
  rcases st with ⟨minus, digit, zero, point, e, pm⟩
  by_cases h0 : c = '0'.toNat
  · subst h0
    cases minus <;> cases zero <;> cases point <;> rfl
  · have h48 : c ≠ 48 := h0
    cases zero <;> cases point <;> simp [h48, hc]

theorem step_point {st : NumberState} :
    st.step '.'.toNat =
      if st.minus ∨ st.point ∨ st.e then none else some { st with digit := false, point := true } := by
  simp [step, isDigit]

theorem not_digit_exp {c : Nat} (hc : IsExp c) : c ≠ '0'.toNat ∧ isDigit c = false ∧ c ≠ '.'.toNat := by
  rcases hc with rfl | rfl <;> decide

theorem not_digit_sign {c : Nat} (hc : IsSign c) :
    c ≠ '0'.toNat ∧ isDigit c = false ∧ c ≠ '.'.toNat ∧ ¬ IsExp c := by
  rcases hc with rfl | rfl <;> (unfold IsExp; decide)

theorem step_exp {st : NumberState} {c : Nat} (hc : IsExp c) :
    st.step c = if st.minus ∨ st.zero ∨ st.e then none else some { st with digit := false, e := true } := by
  obtain ⟨h0, hd, hp⟩ := not_digit_exp hc
  have hc' : c = 'e'.toNat ∨ c = 'E'.toNat := hc
  simp only [step, h0, hd, hp, hc', if_true, if_false, Bool.false_eq_true]

theorem step_sign {st : NumberState} {c : Nat} (hc : IsSign c) :
    st.step c = if !st.e ∨ st.pm then none else some { st with digit := false, pm := true } := by
  obtain ⟨h0, hd, hp, he⟩ := not_digit_sign hc
  have hc' : ¬ (c = 'e'.toNat ∨ c = 'E'.toNat) := he
  simp only [step, h0, hd, hp, hc', if_false, Bool.false_eq_true]

/-! ## Many characters -/

def run (st : NumberState) : Str → Option NumberState
  | [] => some st
  | c :: s => (st.step c).bind fun st => run st s

@[simp] theorem run_nil (st : NumberState) : st.run [] = some st := rfl

theorem run_cons (st : NumberState) (c : Nat) (s : Str) : st.run (c :: s) = (st.step c).bind fun st => st.run s := rfl

theorem run_append (st : NumberState) (s s' : Str) : st.run (s ++ s') = (st.run s).bind fun st => st.run s' := by
  induction s generalizing st with
  | nil => rfl
  | cons c s ih =>
    rw [List.cons_append, run_cons, run_cons, Option.bind_assoc]
    congr 1
    funext st'
    exact ih st'

theorem run_inInt {ds : Str} (h : Digits ds) : (inInt false).run ds = some (inInt false) := by
  induction ds with
  | nil => rfl
  | cons d ds ih =>
    have hd := h d (by simp)
    rw [run_cons, step_digit hd]
    have : ¬ ((inInt false).zero = true ∧ (inInt false).point = false) := by simp [inInt]
    rw [if_neg this]
    simpa [inInt] using ih (fun x hx => h x (by simp [hx]))

def allZero (ds : Str) : Bool := ds.all (· == '0'.toNat)

theorem run_inFrac {ds : Str} (h : Digits ds) (zero digit : Bool) :
    (inFrac zero digit).run ds = some (inFrac (zero && allZero ds) (digit || !ds.isEmpty)) := by
  induction ds generalizing zero digit with
  | nil => simp [allZero]
  | cons d ds ih =>
    have hd := h d (by simp)
    rw [run_cons, step_digit hd, if_neg (by simp [inFrac])]
    have := ih (fun x hx => h x (by simp [hx])) (if d = '0'.toNat then zero else false) true
    by_cases h0 : d = '0'.toNat
    · simpa [inFrac, h0, allZero] using this
    · have h48 : d ≠ 48 := h0
      simpa [inFrac, h48, beq_eq_false_iff_ne.mpr h48, allZero] using this

theorem run_inExp {ds : Str} (h : Digits ds) (point digit pm : Bool) :
    (inExp point digit pm).run ds = some (inExp point (digit || !ds.isEmpty) pm) := by
  induction ds generalizing digit with
  | nil => simp
  | cons d ds ih =>
    have hd := h d (by simp)
    rw [run_cons, step_digit hd, if_neg (by simp [inExp])]
    simpa [inExp] using ih (fun x hx => h x (by simp [hx])) true

/-! ## What the flags say of the text -/

/-- The text of a number up to some point, and the state there. -/
inductive Phase : Str → NumberState → Prop where
  | minus : Phase ['-'.toNat] afterMinus
  | int {minus int : Str} (hm : MinusPart minus) (hi : IntPart int) :
    Phase (minus ++ int) (inInt (int = ['0'.toNat]))
  | frac {minus int ds : Str} (hm : MinusPart minus) (hi : IntPart int) (hd : Digits ds) :
    Phase (minus ++ (int ++ '.'.toNat :: ds)) (inFrac (decide (int = ['0'.toNat]) && allZero ds) (!ds.isEmpty))
  | exp {minus int frac ds : Str} {e : Nat} (hm : MinusPart minus) (hi : IntPart int)
    (hf : frac = [] ∨ ∃ ds, frac = '.'.toNat :: ds ∧ Digits ds) (hz : ¬ ZeroMantissa int frac) (he : IsExp e)
    (hd : Digits ds) :
    Phase (minus ++ (int ++ (frac ++ e :: ds))) (inExp (!frac.isEmpty) (!ds.isEmpty) false)
  | sign {minus int frac ds ds' : Str} {e c : Nat} (hm : MinusPart minus) (hi : IntPart int)
    (hf : frac = [] ∨ ∃ ds, frac = '.'.toNat :: ds ∧ Digits ds) (hz : ¬ ZeroMantissa int frac) (he : IsExp e)
    (hd : Digits ds) (hc : IsSign c) (hd' : Digits ds') :
    Phase (minus ++ (int ++ (frac ++ e :: (ds ++ c :: ds')))) (inExp (!frac.isEmpty) (!ds'.isEmpty) true)

theorem intPart_digit {d : Nat} (hd : isDigit d = true) : IntPart [d] := by
  by_cases h0 : d = '0'.toNat
  · exact Or.inl (by rw [h0])
  · exact Or.inr ⟨d, [], rfl, hd, h0, by simp [Digits]⟩

theorem phase_start {c : Nat} (hc : isDigit c = true ∨ c = '-'.toNat) : Phase [c] (start c) := by
  by_cases h : c = '-'.toNat
  · subst h; exact Phase.minus
  · have hd : isDigit c = true := hc.resolve_right h
    have := Phase.int (Or.inl rfl) (intPart_digit hd)
    have e : start c = inInt (decide ([c] = ['0'.toNat])) := by
      have h45 : c ≠ 45 := h
      simp [start, inInt, h45]
    rw [e]
    exact this

theorem zeroMantissa_frac {int ds : Str} :
    (decide (int = ['0'.toNat]) && allZero ds) = true → ZeroMantissa int ('.'.toNat :: ds) := by
  intro h
  simp only [Bool.and_eq_true, decide_eq_true_eq, allZero, List.all_eq_true, beq_iff_eq] at h
  refine ⟨h.1, fun c hc => ?_⟩
  rcases List.mem_cons.mp hc with rfl | hc
  · exact Or.inl rfl
  · exact Or.inr (h.2 c hc)

theorem allZero_append (ds : Str) (d : Nat) : allZero (ds ++ [d]) = (allZero ds && decide (d = '0'.toNat)) := by
  simp only [allZero, List.all_append, List.all_cons, List.all_nil, Bool.and_true]
  rfl

theorem intPart_append {int : Str} {d : Nat} (hi : IntPart int) (hz : int ≠ ['0'.toNat]) (hd : isDigit d = true) :
    IntPart (int ++ [d]) ∧ int ++ [d] ≠ ['0'.toNat] := by
  rcases hi with rfl | ⟨x, ds, rfl, hx, h0, hds⟩
  · exact absurd rfl hz
  · refine ⟨Or.inr ⟨x, ds ++ [d], rfl, hx, h0, hds.append hd⟩, fun h => ?_⟩
    simp at h

theorem phase_digit {t : Str} {st st' : NumberState} {d : Nat} (h : Phase t st) (hd : isDigit d = true)
    (hs : st.step d = some st') : Phase (t ++ [d]) st' := by
  rw [step_digit hd] at hs
  cases h with
  | minus =>
    have e : st' = inInt (decide ([d] = ['0'.toNat])) := by
      rw [if_neg (by simp [afterMinus])] at hs
      simpa [afterMinus, inInt] using hs.symm
    rw [e]
    exact Phase.int (Or.inr rfl) (intPart_digit hd)
  | @int minus int hm hi =>
    by_cases hz : int = ['0'.toNat]
    · simp [inInt, hz] at hs
    · obtain ⟨hi', hz'⟩ := intPart_append hi hz hd
      have e : st' = inInt (decide (int ++ [d] = ['0'.toNat])) := by
        rw [decide_eq_false hz, if_neg (by simp [inInt])] at hs
        rw [decide_eq_false hz']
        simpa [inInt] using hs.symm
      rw [e, List.append_assoc]
      exact Phase.int hm hi'
  | @frac minus int ds hm hi hds =>
    have e : st' = inFrac (decide (int = ['0'.toNat]) && allZero (ds ++ [d])) (!(ds ++ [d]).isEmpty) := by
      rw [if_neg (by simp [inFrac])] at hs
      rw [allZero_append, ← Bool.and_assoc]
      generalize (decide (int = ['0'.toNat]) && allZero ds) = z at hs ⊢
      by_cases h0 : d = 48 <;> simpa [inFrac, h0] using hs.symm
    rw [e]
    have := Phase.frac hm hi (hds.append hd)
    simpa using this
  | @exp minus int frac ds e hm hi hf hz he hds =>
    have e : st' = inExp (!frac.isEmpty) (!(ds ++ [d]).isEmpty) false := by
      rw [if_neg (by simp [inExp])] at hs
      simpa [inExp] using hs.symm
    rw [e]
    have := Phase.exp hm hi hf hz he (hds.append hd)
    simpa using this
  | @sign minus int frac ds ds' e c hm hi hf hz he hds hc hds' =>
    have e : st' = inExp (!frac.isEmpty) (!(ds' ++ [d]).isEmpty) true := by
      rw [if_neg (by simp [inExp])] at hs
      simpa [inExp] using hs.symm
    rw [e]
    have := Phase.sign hm hi hf hz he hds hc (hds'.append hd)
    simpa using this

theorem phase_point {t : Str} {st st' : NumberState} (h : Phase t st) (hs : st.step '.'.toNat = some st') :
    Phase (t ++ ['.'.toNat]) st' := by
  rw [step_point] at hs
  cases h with
  | minus => simp [afterMinus] at hs
  | @int minus int hm hi =>
    have e : st' = inFrac (decide (int = ['0'.toNat]) && allZero []) (!([] : Str).isEmpty) := by
      rw [if_neg (by simp [inInt])] at hs
      simpa [inInt, inFrac, allZero] using hs.symm
    rw [e, List.append_assoc]
    exact Phase.frac hm hi digits_nil
  | frac => simp [inFrac] at hs
  | exp => simp [inExp] at hs
  | sign => simp [inExp] at hs

theorem phase_exp {t : Str} {st st' : NumberState} {c : Nat} (h : Phase t st) (hc : IsExp c)
    (hs : st.step c = some st') : Phase (t ++ [c]) st' := by
  rw [step_exp hc] at hs
  cases h with
  | minus => simp [afterMinus] at hs
  | @int minus int hm hi =>
    by_cases hz : int = ['0'.toNat]
    · simp [inInt, hz] at hs
    · have e : st' = inExp (!([] : Str).isEmpty) (!([] : Str).isEmpty) false := by
        rw [decide_eq_false hz, if_neg (by simp [inInt])] at hs
        simpa [inInt, inExp] using hs.symm
      rw [e, List.append_assoc]
      exact Phase.exp hm hi (Or.inl rfl) (fun h => hz h.1) hc digits_nil
  | @frac minus int ds hm hi hds =>
    by_cases hz : (decide (int = ['0'.toNat]) && allZero ds) = true
    · rw [hz, if_pos (by simp [inFrac])] at hs
      cases hs
    · have e : st' = inExp (!('.'.toNat :: ds).isEmpty) (!([] : Str).isEmpty) false := by
        rw [Bool.not_eq_true] at hz
        rw [hz, if_neg (by simp [inFrac])] at hs
        simpa [inFrac, inExp] using hs.symm
      rw [e]
      have hz' : ¬ ZeroMantissa int ('.'.toNat :: ds) := by
        rintro ⟨h1, h2⟩
        apply hz
        simp only [Bool.and_eq_true, decide_eq_true_eq, allZero, List.all_eq_true, beq_iff_eq]
        refine ⟨h1, fun x hx => (h2 x (by simp [hx])).resolve_left fun hp => ?_⟩
        have := hds x hx
        rw [hp] at this
        cases this
      have := Phase.exp hm hi (Or.inr ⟨ds, rfl, hds⟩) hz' hc digits_nil
      simpa using this
  | exp => simp [inExp] at hs
  | sign => simp [inExp] at hs

theorem phase_sign {t : Str} {st st' : NumberState} {c : Nat} (h : Phase t st) (hc : IsSign c)
    (hs : st.step c = some st') : Phase (t ++ [c]) st' := by
  rw [step_sign hc] at hs
  cases h with
  | minus => simp [afterMinus] at hs
  | int => simp [inInt] at hs
  | frac => simp [inFrac] at hs
  | @exp minus int frac ds e hm hi hf hz he hds =>
    have e : st' = inExp (!frac.isEmpty) (!([] : Str).isEmpty) true := by
      rw [if_neg (by simp [inExp])] at hs
      simpa [inExp] using hs.symm
    rw [e]
    have := Phase.sign hm hi hf hz he hds hc digits_nil
    simpa using this
  | sign => simp [inExp] at hs

theorem phase_step {t : Str} {st st' : NumberState} {c : Nat} (h : Phase t st) (hc : isNumberChar c = true)
    (hs : st.step c = some st') : Phase (t ++ [c]) st' := by
  rcases isNumberChar_cases hc with hc | rfl | hc | hc
  · exact phase_digit h hc hs
  · exact phase_point h hs
  · exact phase_exp h hc hs
  · exact phase_sign h hc hs

theorem phase_run {t s : Str} {st st' : NumberState} (h : Phase t st) (hc : ∀ c ∈ s, isNumberChar c = true)
    (hs : st.run s = some st') : Phase (t ++ s) st' := by
  induction s generalizing t st with
  | nil =>
    cases hs
    rwa [List.append_nil]
  | cons c s ih =>
    rw [run_cons] at hs
    obtain ⟨st1, h1, h2⟩ := Option.bind_eq_some_iff.mp hs
    have := ih (phase_step h (hc c (by simp)) h1) (fun x hx => hc x (by simp [hx])) h2
    rwa [List.append_assoc] at this

/-! ## The numbers that the loop takes -/

theorem notMem_minusPart {t : Str} (h : MinusPart t) : '.'.toNat ∉ t := by
  rcases h with rfl | rfl <;> decide

theorem notMem_digits {ds : Str} (h : Digits ds) : '.'.toNat ∉ ds := fun hp => by cases h _ hp

theorem notMem_intPart {t : Str} (h : IntPart t) : '.'.toNat ∉ t := by
  rcases h with rfl | ⟨d, ds, rfl, hd, -, hds⟩
  · decide
  · apply notMem_digits
    intro x hx
    rcases List.mem_cons.mp hx with rfl | hx
    · exact hd
    · exact hds x hx

theorem notMem_looseExp {t : Str} (h : LooseExp t) : '.'.toNat ∉ t := by
  have point_exp : ∀ c, IsExp c → '.'.toNat ≠ c := fun c hc h => (not_digit_exp hc).2.2 h.symm
  have point_sign : ∀ c, IsSign c → '.'.toNat ≠ c := fun c hc h => (not_digit_sign hc).2.2.1 h.symm
  rcases h with rfl | ⟨e, ds, he, hds, -, rfl⟩ | ⟨e, ds, c, ds', he, hds, hc, hds', -, rfl⟩
  · simp
  · rw [List.mem_cons, not_or]
    exact ⟨point_exp e he, notMem_digits hds⟩
  · rw [List.mem_cons, List.mem_append, List.mem_cons, not_or, not_or, not_or]
    exact ⟨point_exp e he, notMem_digits hds, point_sign c hc, notMem_digits hds'⟩

/-- Of the parts of a number only the fraction has a point. -/
theorem mem_point {minus int frac exp : Str} (hm : MinusPart minus) (hi : IntPart int)
    (hf : frac = [] ∨ ∃ ds, frac = '.'.toNat :: ds ∧ Digits ds) (he : LooseExp exp) :
    '.'.toNat ∈ minus ++ (int ++ (frac ++ exp)) ↔ (!frac.isEmpty) = true := by
  rw [List.mem_append, List.mem_append, List.mem_append]
  have h1 := notMem_minusPart hm
  have h2 := notMem_intPart hi
  have h3 := notMem_looseExp he
  rcases hf with rfl | ⟨ds, rfl, -⟩
  · simp only [h1, h2, h3, List.not_mem_nil, or_self, false_iff]
    simp
  · simp

theorem phase_taken {t : Str} {st : NumberState} (h : Phase t st) (hd : st.digit = true) :
    TakenNumber t ∧ ('.'.toNat ∈ t ↔ st.point = true) := by
  have ne_nil : ∀ ds : Str, (!ds.isEmpty) = true → ds ≠ [] := by
    rintro ds h rfl
    cases h
  cases h with
  | minus => cases hd
  | @int minus int hm hi =>
    refine ⟨⟨minus, int, [], [], hm, hi, Or.inl rfl, Or.inl rfl, fun h => absurd rfl h, by simp⟩, ?_⟩
    simpa [inInt] using mem_point hm hi (Or.inl rfl) (Or.inl rfl)
  | @frac minus int ds hm hi hds =>
    have hne := ne_nil ds hd
    refine ⟨⟨minus, int, '.'.toNat :: ds, [], hm, hi, Or.inr ⟨ds, rfl, hds, fun h => absurd h hne⟩, Or.inl rfl,
      fun h => absurd rfl h, by simp⟩, ?_⟩
    simp [inFrac]
  | @exp minus int frac ds e hm hi hf hz he hds =>
    have hexp : LooseExp (e :: ds) := Or.inr (Or.inl ⟨e, ds, he, hds, ne_nil ds hd, rfl⟩)
    refine ⟨⟨minus, int, frac, e :: ds, hm, hi, ?_, hexp, fun _ => hz, rfl⟩, mem_point hm hi hf hexp⟩
    exact hf.imp id fun ⟨ds', h1, h2⟩ => ⟨ds', h1, h2, fun _ => by simp⟩
  | @sign minus int frac ds ds' e c hm hi hf hz he hds hc hds' =>
    have hexp : LooseExp (e :: (ds ++ c :: ds')) :=
      Or.inr (Or.inr ⟨e, ds, c, ds', he, hds, hc, hds', ne_nil ds' hd, rfl⟩)
    refine ⟨⟨minus, int, frac, e :: (ds ++ c :: ds'), hm, hi, ?_, hexp, fun _ => hz, rfl⟩, mem_point hm hi hf hexp⟩
    exact hf.imp id fun ⟨ds', h1, h2⟩ => ⟨ds', h1, h2, fun _ => by simp⟩

/-- The state where the integer ends. -/
theorem run_int {minus int s : Str} {c : Nat} (hm : MinusPart minus) (hi : IntPart int) (h : minus ++ int = c :: s) :
    (start c).run s = some (inInt (decide (int = ['0'.toNat]))) := by
  rcases hm with rfl | rfl
  · rcases hi with rfl | ⟨d, ds, rfl, hd, h0, hds⟩
    · cases h
      rfl
    · cases h
      have h48 : c ≠ 48 := h0
      have h45 : c ≠ 45 := by
        rintro rfl
        cases hd
      have e : start c = inInt false := by simp [start, inInt, h48, h45]
      rw [e, run_inInt hds]
      simp [h48]
  · cases h
    rcases hi with rfl | ⟨d, ds, rfl, hd, h0, hds⟩
    · rfl
    · have h48 : d ≠ 48 := h0
      have e : (start '-'.toNat).step d = some (inInt false) := by
        rw [step_digit hd]
        simp [start, inInt, h48]
      show (start '-'.toNat).run (d :: ds) = _
      rw [run_cons, e, Option.bind_some, run_inInt hds]
      simp [h48]

theorem run_looseExp {exp : Str} {st : NumberState} (h : LooseExp exp) (hne : exp ≠ [])
    (hst : st.minus = false ∧ st.zero = false ∧ st.e = false ∧ st.pm = false) :
    ∃ st', st.run exp = some st' ∧ st'.digit = true := by
  obtain ⟨hm, hz, he, hpm⟩ := hst
  have isEmpty_false : ∀ ds : Str, ds ≠ [] → (!ds.isEmpty) = true := by
    intro ds h
    cases ds
    · exact absurd rfl h
    · rfl
  have enter : ∀ c, IsExp c → st.step c = some (inExp st.point false false) := by
    intro c hc
    rw [step_exp hc, if_neg (by simp [hm, hz, he])]
    simp [inExp, hm, hz, hpm]
  rcases h with rfl | ⟨c, ds, hc, hds, hds0, rfl⟩ | ⟨c, ds, d, ds', hc, hds, hd, hds', hds0, rfl⟩
  · exact absurd rfl hne
  · refine ⟨inExp st.point true false, ?_, rfl⟩
    rw [run_cons, enter c hc]
    show (inExp st.point false false).run ds = _
    rw [run_inExp hds, isEmpty_false ds hds0]
    rfl
  · refine ⟨inExp st.point true true, ?_, rfl⟩
    rw [run_cons, enter c hc]
    show (inExp st.point false false).run (ds ++ d :: ds') = _
    have sign : ∀ b, (inExp st.point b false).step d = some (inExp st.point false true) := by
      intro b
      rw [step_sign hd, if_neg (by simp [inExp])]
      simp [inExp]
    rw [run_append, run_inExp hds, Option.bind_some, run_cons, sign, Option.bind_some, run_inExp hds',
      isEmpty_false ds' hds0]
    rfl

theorem run_frac {ds : Str} (h : Digits ds) (zero : Bool) :
    (inInt zero).run ('.'.toNat :: ds) = some (inFrac (zero && allZero ds) (!ds.isEmpty)) := by
  have e : (inInt zero).step '.'.toNat = some (inFrac zero false) := by
    rw [step_point, if_neg (by simp [inInt])]
    simp [inInt, inFrac]
  rw [run_cons, e, Option.bind_some, run_inFrac h, Bool.false_or]

theorem minus_int_cons {minus int : Str} (hm : MinusPart minus) (hi : IntPart int) :
    ∃ c s, minus ++ int = c :: s := by
  rcases hm with rfl | rfl
  · rcases hi with rfl | ⟨d, ds, rfl, -⟩
    · exact ⟨_, _, rfl⟩
    · exact ⟨_, _, rfl⟩
  · exact ⟨_, _, rfl⟩

theorem taken_run {c : Nat} {s : Str} (h : TakenNumber (c :: s)) :
    ∃ st, (start c).run s = some st ∧ st.digit = true := by
  obtain ⟨minus, int, frac, exp, hm, hi, hf, he, hz, heq⟩ := h
  obtain ⟨c', s', hc⟩ := minus_int_cons hm hi
  rw [← List.append_assoc, hc] at heq
  rw [List.cons_append, List.cons.injEq] at heq
  obtain ⟨rfl, rfl⟩ := heq
  rw [run_append, run_int hm hi hc, Option.bind_some, run_append]
  rcases hf with rfl | ⟨ds, rfl, hds, hds0⟩
  · rw [run_nil, Option.bind_some]
    by_cases hexp : exp = []
    · subst hexp
      exact ⟨_, rfl, rfl⟩
    · have hint : int ≠ ['0'.toNat] := fun h => hz hexp ⟨h, by simp⟩
      apply run_looseExp he hexp
      simp only [inInt, decide_eq_false hint, and_self]
  · rw [run_frac hds, Option.bind_some]
    by_cases hexp : exp = []
    · subst hexp
      refine ⟨_, rfl, ?_⟩
      cases ds
      · exact absurd rfl (hds0 rfl)
      · rfl
    · apply run_looseExp he hexp
      have hzero : (decide (int = ['0'.toNat]) && allZero ds) = false := by
        rw [← Bool.not_eq_true]
        exact fun h => hz hexp (zeroMantissa_frac h)
      simp only [inFrac, hzero, and_self]

theorem any_of_parts {minus int rest : Str} (hm : MinusPart minus) (hi : IntPart int)
    (hr : ∀ c ∈ rest, isNumberChar c = true) : AnyNumber (minus ++ (int ++ rest)) := by
  have int_digits : ∀ c ∈ int, isDigit c = true := by
    rcases hi with rfl | ⟨d, ds, rfl, hd, -, hds⟩
    · intro c hc
      rw [List.mem_singleton.mp hc]
      rfl
    · intro c hc
      rcases List.mem_cons.mp hc with rfl | hc
      · exact hd
      · exact hds c hc
  have tail : ∀ c ∈ int ++ rest, isNumberChar c = true := by
    intro c hc
    rcases List.mem_append.mp hc with hc | hc
    · exact isNumberChar_digit (int_digits c hc)
    · exact hr c hc
  rcases hm with rfl | rfl
  · cases int with
    | nil => rcases hi with h | ⟨d, ds, h, -⟩ <;> cases h
    | cons d ds =>
      exact ⟨d, ds ++ rest, rfl, Or.inl (int_digits d (by simp)), fun c hc => tail c (by simp at hc ⊢; tauto)⟩
  · exact ⟨'-'.toNat, int ++ rest, rfl, Or.inr rfl, tail⟩

theorem isNumberChar_exp {c : Nat} (h : IsExp c) : isNumberChar c = true := by
  rcases h with rfl | rfl <;> rfl

theorem isNumberChar_sign {c : Nat} (h : IsSign c) : isNumberChar c = true := by
  rcases h with rfl | rfl <;> rfl

theorem looseExp_chars {exp : Str} (h : LooseExp exp) : ∀ c ∈ exp, isNumberChar c = true := by
  intro c hc
  rcases h with rfl | ⟨e, ds, he, hds, -, rfl⟩ | ⟨e, ds, d, ds', he, hds, hd, hds', -, rfl⟩
  · cases hc
  · rcases List.mem_cons.mp hc with rfl | hc
    · exact isNumberChar_exp he
    · exact isNumberChar_digit (hds c hc)
  · simp only [List.mem_cons, List.mem_append] at hc
    rcases hc with rfl | hc | rfl | hc
    · exact isNumberChar_exp he
    · exact isNumberChar_digit (hds c hc)
    · exact isNumberChar_sign hd
    · exact isNumberChar_digit (hds' c hc)

theorem fracPart_chars {ds : Str} (hds : Digits ds) : ∀ c ∈ '.'.toNat :: ds, isNumberChar c = true := by
  intro c hc
  rcases List.mem_cons.mp hc with rfl | hc
  · rfl
  · exact isNumberChar_digit (hds c hc)

theorem taken_any {t : Str} (h : TakenNumber t) : AnyNumber t := by
  obtain ⟨minus, int, frac, exp, hm, hi, hf, he, -, rfl⟩ := h
  apply any_of_parts hm hi
  intro c hc
  rcases List.mem_append.mp hc with hc | hc
  · rcases hf with rfl | ⟨ds, rfl, hds, -⟩
    · cases hc
    · exact fracPart_chars hds c hc
  · exact looseExp_chars he c hc

theorem expPart_loose {t : Str} (h : ExpPart t) : LooseExp t := by
  rcases h with rfl | ⟨e, sign, ds, he, rfl | ⟨c, hc, rfl⟩, hds, hds0, rfl⟩
  · exact Or.inl rfl
  · exact Or.inr (Or.inl ⟨e, ds, he, hds, hds0, rfl⟩)
  · exact Or.inr (Or.inr ⟨e, [], c, ds, he, by simp [Digits], hc, hds, hds0, rfl⟩)

theorem rfc_any {t : Str} (h : RfcNumber t) : AnyNumber t := by
  obtain ⟨minus, int, frac, exp, hm, hi, hf, he, rfl⟩ := h
  apply any_of_parts hm hi
  intro c hc
  rcases List.mem_append.mp hc with hc | hc
  · rcases hf with rfl | ⟨ds, rfl, hds, -⟩
    · cases hc
    · exact fracPart_chars hds c hc
  · exact looseExp_chars (expPart_loose he) c hc

end NumberState

/-- The loop takes the longest run of number characters, and fails unless the run is a number. -/
theorem numberLoop_ok {start pos : Nat} {st st' : NumberState} {text text' rest : Str} {j : Input}
    (h : numberLoop start st text pos rest = .ok (text', st', j)) :
    ∃ s, rest = s ++ j.rest ∧ text' = text ++ s ∧ st.run s = some st' ∧ st'.digit = true ∧
      (∀ c ∈ s, isNumberChar c = true) ∧ Stops j.rest := by
  induction rest generalizing st text pos with
  | nil =>
    unfold numberLoop at h
    split at h
    · next hd =>
      cases h
      exact ⟨[], rfl, by simp, rfl, hd, by simp, by simp [Stops]⟩
    · cases h
  | cons c s ih =>
    unfold numberLoop at h
    split at h
    · next hc =>
      split at h
      · cases h
      · next st1 h1 =>
        obtain ⟨s', hs, ht, hr, hd, hn, hst⟩ := ih h
        refine ⟨c :: s', by rw [hs]; rfl, by rw [ht]; simp, ?_, hd, ?_, hst⟩
        · rw [NumberState.run_cons, h1]
          exact hr
        · intro x hx
          rcases List.mem_cons.mp hx with rfl | hx
          · exact hc
          · exact hn x hx
    · next hc =>
      split at h
      · next hd =>
        cases h
        refine ⟨[], rfl, by simp, rfl, hd, by simp, ?_⟩
        intro x hx
        cases hx
        simpa using hc
      · cases h

theorem numberLoop_run (start pos : Nat) {st st' : NumberState} (text : Str) {s r : Str} (h : st.run s = some st')
    (hd : st'.digit = true) (hn : ∀ c ∈ s, isNumberChar c = true) (hr : Stops r) :
    numberLoop start st text pos (s ++ r) = .ok (text ++ s, st', ⟨pos + s.length, r⟩) := by
  induction s generalizing st text pos with
  | nil =>
    cases h
    cases r with
    | nil => simp [numberLoop, hd]
    | cons c r =>
      have hc : isNumberChar c = false := hr c rfl
      simp [numberLoop, hd, hc]
  | cons c s ih =>
    rw [NumberState.run_cons] at h
    obtain ⟨st1, h1, h2⟩ := Option.bind_eq_some_iff.mp h
    have hc := hn c (by simp)
    rw [List.cons_append, numberLoop, if_pos hc, h1]
    show numberLoop start st1 (text ++ [c]) (pos + 1) (s ++ r) = _
    rw [ih _ _ h2 (fun x hx => hn x (by simp [hx]))]
    simp only [List.append_assoc, List.cons_append, List.nil_append, List.length_cons, Except.ok.injEq, Prod.mk.injEq,
      Input.mk.injEq, true_and, and_true]
    omega

theorem numberLoop_ne_outOfFuel {start pos : Nat} {st : NumberState} {text rest : Str} :
    numberLoop start st text pos rest ≠ .error .outOfFuel := by
  induction rest generalizing st text pos with
  | nil =>
    unfold numberLoop
    split <;> simp
  | cons c s ih =>
    unfold numberLoop
    split
    · split
      · simp
      · exact ih
    · split <;> simp

end EvilHaxe.Json
