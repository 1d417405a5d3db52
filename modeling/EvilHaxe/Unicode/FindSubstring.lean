/-
The forward search of `find_substring` (`evalString.ml`). It goes over the code points of a string by their indices and the
indices of their bytes, and takes the byte step from the byte at which the comparison failed.
-/
import EvilHaxe.Unicode.UTF8
import EvilHaxe.Lib.Restarts

namespace EvilHaxe.Unicode.EvalString

open Lib Lib.Utf8

/-- A string with its length in code points. -/
structure VString where
  sstring : List Nat
  slength : Nat

/-- The string of a text. -/
def vstring (a : List Char) : VString := ⟨bytes a, a.length⟩

inductive ScanResult where
  | scanHit | scanAscii | scanOther
deriving DecidableEq

/-- `scan`, over the bytes of `sub` that are left; behind the end of a string there is a zero. -/
def scan (sThis : List Nat) : Nat → List Nat → ScanResult
  | _, [] => .scanHit
  | i, d :: sSub =>
    if sThis.getD i 0 = d then
      if sSub.isEmpty then .scanHit else scan sThis (i + 1) sSub
    else if sThis.getD i 0 ≤ 127 then .scanAscii
    else .scanOther

/-- What one round of the loop comes to. -/
inductive Round where
  | found (cIndex bIndex bEnd : Nat)
  | notFound
  | invalidArg
  | again (cIndex bIndex : Nat)
deriving DecidableEq

def round (this sub : VString) (cIndex bIndex : Nat) : Round :=
  if (cIndex : Int) > (this.slength : Int) - sub.slength ∨ bIndex ≥ this.sstring.length then .notFound
  else
    match scan this.sstring bIndex sub.sstring with
    | .scanHit => .found cIndex bIndex (bIndex + sub.sstring.length)
    | .scanAscii => .again (cIndex + 1) (bIndex + 1)
    | .scanOther =>
      match UTF8.next this.sstring bIndex with
      | some b => .again (cIndex + 1) b.toNat
      | none => .invalidArg

theorem round_again {this sub : VString} {c b c' b' : Nat} (h : round this sub c b = .again c' b') :
    c' = c + 1 ∧ c ≤ this.slength := by
  unfold round at h
  split at h
  · exact absurd h (by simp)
  · next hstop =>
    have hc : c ≤ this.slength := by omega
    split at h
    · exact absurd h (by simp)
    · obtain ⟨rfl, -⟩ := Round.again.inj h
      exact ⟨rfl, hc⟩
    · split at h
      · obtain ⟨rfl, -⟩ := Round.again.inj h
        exact ⟨rfl, hc⟩
      · exact absurd h (by simp)

inductive Thrown where
  | notFound | invalidArg
deriving DecidableEq

/-- The loop: the index of the code point, and the bytes from and to which the string is found. -/
def findSubstring (this sub : VString) (cIndex bIndex : Nat) : Except Thrown (Nat × Nat × Nat) :=
  match _ : round this sub cIndex bIndex with
  | .found c b e => .ok (c, b, e)
  | .notFound => .error .notFound
  | .invalidArg => .error .invalidArg
  | .again c b => findSubstring this sub c b
termination_by this.slength + 1 - cIndex
decreasing_by
  obtain ⟨rfl, hle⟩ := round_again (by assumption)
  omega

/-- The loop that begins with the first pair comes to the second one. -/
inductive Steps (this sub : VString) : Nat × Nat → Nat × Nat → Prop
  | here (p : Nat × Nat) : Steps this sub p p
  | next {p q : Nat × Nat} {c b : Nat} (h : Steps this sub p q) (hr : round this sub q.1 q.2 = .again c b) :
      Steps this sub p (c, b)

/-! ## What it is for -/

/-- The first place of `b` in `a` from the start on. -/
def First (a b : List Char) (start p : Nat) : Prop :=
  start ≤ p ∧ b <+: a.drop p ∧ ∀ q, start ≤ q → q < p → ¬b <+: a.drop q

/-- From a code point on: the first place is found, there is none if there is none, and the pair of indices is that of a code
point throughout. -/
structure Finds (a b : List Char) (start : Nat) : Prop where
  found : ∀ p, First a b start p → findSubstring (vstring a) (vstring b) start (offset a start) =
    .ok (p, offset a p, offset a p + (bytes b).length)
  notFound : (∀ p, start ≤ p → ¬b <+: a.drop p) →
    findSubstring (vstring a) (vstring b) start (offset a start) = .error .notFound
  consistent : ∀ c i, Steps (vstring a) (vstring b) (start, offset a start) (c, i) → c ≤ a.length ∧ i = offset a c

/-- At `p` the texts begin alike, with what is not ASCII, and what differs first is ASCII in `a`. -/
def Trap (a b : List Char) (p : Nat) : Prop :=
  ∃ x y, a[p]? = some x ∧ ¬Ascii x ∧ 0 < common b (a.drop p) ∧ a[p + common b (a.drop p)]? = some y ∧ Ascii y

/-! ## One round -/

variable {a b : List Char} {start p : Nat}

theorem getD_of_drop {t r : List Nat} {i n : Nat} (h : t.drop i = n :: r) : t.getD i 0 = n := by
  have h0 : (t.drop i)[0]? = some n := by
    rw [h]
    rfl
  rw [List.getElem?_drop, Nat.add_zero] at h0
  rw [List.getD_eq_getElem?_getD, h0, Option.getD_some]

theorem drop_succ_of_drop {t r : List Nat} {i n : Nat} (h : t.drop i = n :: r) : t.drop (i + 1) = r := by
  rw [← List.drop_drop, h]
  rfl

theorem scan_hit {t r : List Nat} {i : Nat} (s : List Nat) (h : t.drop i = s ++ r) : scan t i s = .scanHit := by
  induction s generalizing i with
  | nil => rfl
  | cons d s ih => rw [scan, if_pos (getD_of_drop h), ih (drop_succ_of_drop h), ite_self]

/-- What is the same is passed. -/
theorem scan_append {t r s : List Nat} {i : Nat} (q : List Nat) (h : t.drop i = q ++ r) (hs : s ≠ []) :
    scan t i (q ++ s) = scan t (i + q.length) s := by
  induction q generalizing i with
  | nil => rfl
  | cons d q ih =>
    have hne : (q ++ s).isEmpty = false := by
      rw [List.isEmpty_eq_false_iff]
      exact List.append_ne_nil_of_right_ne_nil q hs
    rw [List.cons_append, scan, if_pos (getD_of_drop h), hne, if_neg Bool.false_ne_true, ih (drop_succ_of_drop h),
      List.length_cons, Nat.add_assoc, Nat.add_comm 1]

/-- Where neither begins with the other, the scan fails within the first, and so at no ASCII byte. -/
theorem scan_other {t r : List Nat} {i : Nat} (u q : List Nat) (h : t.drop i = u ++ r) (hu : ∀ n ∈ u, 0x80 ≤ n)
    (huq : ¬u <+: q) (hqu : ¬q <+: u) : scan t i q = .scanOther := by
  induction u generalizing i q with
  | nil => exact absurd List.nil_prefix huq
  | cons n u ih =>
    cases q with
    | nil => exact absurd List.nil_prefix hqu
    | cons d q =>
      have hn := hu n List.mem_cons_self
      rw [scan, getD_of_drop h]
      by_cases hd : n = d
      · subst hd
        have hne : q.isEmpty = false := by
          rw [List.isEmpty_eq_false_iff]
          rintro rfl
          exact hqu (List.cons_prefix_cons.2 ⟨rfl, List.nil_prefix⟩)
        rw [if_pos rfl, hne, if_neg Bool.false_ne_true]
        refine ih q (drop_succ_of_drop h) (fun m hm => hu m (List.mem_cons_of_mem _ hm)) ?_ ?_
        · exact fun hp => huq (List.cons_prefix_cons.2 ⟨rfl, hp⟩)
        · exact fun hp => hqu (List.cons_prefix_cons.2 ⟨rfl, hp⟩)
      · rw [if_neg hd, if_neg (by omega)]

/-- An ASCII byte is no first byte of another code point. -/
theorem head_encode_ne {x y : Char} {d : Nat} {s : List Nat} (hx : Ascii x) (hne : y ≠ x) (hd : encode y = d :: s) :
    x.toNat ≠ d := by
  rintro rfl
  by_cases hy : Ascii y
  · rw [encode_ascii hy] at hd
    exact hne (Char.toNat_inj.1 (List.cons.inj hd).1)
  · have h := le_of_mem_encode hy x.toNat (by rw [hd]; exact List.mem_cons_self)
    exact absurd hx (Nat.not_lt.2 h)

/-- The scan from a code point fails at the first code point that differs. -/
theorem scan_fails (x₀ a' b' : List Char) (hlen : b'.length ≤ a'.length) (hno : ¬b' <+: a') :
    ∃ y, a'[common b' a']? = some y ∧
      scan (bytes (x₀ ++ a')) (bytes x₀).length (bytes b') = if Ascii y then .scanAscii else .scanOther := by
  induction b' generalizing x₀ a' with
  | nil => exact absurd List.nil_prefix hno
  | cons c b' ih =>
    cases a' with
    | nil => exact absurd hlen (by simp)
    | cons x a' =>
      have hdrop : (bytes (x₀ ++ x :: a')).drop (bytes x₀).length = encode x ++ bytes a' := by
        rw [bytes_append, List.drop_left, bytes_cons]
      by_cases hc : c = x
      · subst hc
        have hno' : ¬b' <+: a' := fun h => hno (List.cons_prefix_cons.2 ⟨rfl, h⟩)
        have hb : bytes b' ≠ [] := by
          refine List.ne_nil_of_length_pos (length_bytes_pos ?_)
          rintro rfl
          exact hno' List.nil_prefix
        obtain ⟨y, hy, hs⟩ := ih (x₀ ++ [c]) a' (Nat.le_of_succ_le_succ hlen) hno'
        refine ⟨y, by rw [common_cons_self, List.getElem?_cons_succ]; exact hy, ?_⟩
        rw [bytes_cons, scan_append (encode c) hdrop hb, ← length_bytes_snoc, List.append_cons]
        exact hs
      · refine ⟨x, by rw [common_cons_ne hc]; rfl, ?_⟩
        rw [bytes_cons]
        by_cases hx : Ascii x
        · rw [if_pos hx]
          rw [encode_ascii hx] at hdrop
          obtain ⟨d, s, hd⟩ := List.exists_cons_of_ne_nil (List.ne_nil_of_length_pos (length_encode_pos c))
          rw [hd, List.cons_append, scan, getD_of_drop hdrop, if_neg (head_encode_ne hx hc hd), if_pos]
          exact Nat.le_of_lt_succ hx
        · rw [if_neg hx]
          refine scan_other (encode x) _ hdrop (le_of_mem_encode hx) ?_ ?_
          · exact fun h => hc (encode_prefixFree h).symm
          · intro h
            refine hc (encode_prefixFree (r := []) ?_)
            rw [List.append_nil]
            exact (List.prefix_append _ _).trans h

theorem take_split (hp : p ≤ a.length) : a.take p ++ a.drop p = a ∧ (a.take p).length = p :=
  ⟨List.take_append_drop p a, List.length_take_of_le hp⟩

theorem round_end (h : a.length < p + b.length) (i : Nat) : round (vstring a) (vstring b) p i = .notFound :=
  if_pos (.inl (by simp only [vstring]; omega))

/-- A round at a code point scans. -/
theorem round_scan (hb : b ≠ []) (h : p + b.length ≤ a.length) :
    round (vstring a) (vstring b) p (offset a p) =
      match scan (bytes a) (offset a p) (bytes b) with
      | .scanHit => .found p (offset a p) (offset a p + (bytes b).length)
      | .scanAscii => .again (p + 1) (offset a p + 1)
      | .scanOther => .again (p + 1) (offset a (p + 1)) := by
  have hpos := List.length_pos_iff.2 hb
  have hlt := offset_lt (a := a) (i := p) (by omega)
  rw [round, if_neg]
  · simp only [vstring, UTF8.next_offset (show p < a.length by omega), Int.toNat_natCast]
  · simp only [vstring]
    omega

theorem round_hit (hb : b ≠ []) (h : b <+: a.drop p) :
    round (vstring a) (vstring b) p (offset a p) = .found p (offset a p) (offset a p + (bytes b).length) := by
  have hpos := List.length_pos_iff.2 hb
  have hle := h.length_le
  rw [List.length_drop] at hle
  have hdrop := drop_bytes_offset a p
  obtain ⟨r, hr⟩ := h
  rw [← hr, bytes_append] at hdrop
  rw [round_scan hb (by omega), scan_hit _ hdrop]

theorem round_fails (hb : b ≠ []) (h : p + b.length ≤ a.length) (hno : ¬b <+: a.drop p) :
    ∃ y, a[p + common b (a.drop p)]? = some y ∧
      round (vstring a) (vstring b) p (offset a p) =
        if Ascii y then .again (p + 1) (offset a p + 1) else .again (p + 1) (offset a (p + 1)) := by
  obtain ⟨hsplit, hlen⟩ := take_split (a := a) (p := p) (by omega)
  obtain ⟨y, hy, hs⟩ := scan_fails (a.take p) (a.drop p) b (by rw [List.length_drop]; omega) hno
  rw [List.getElem?_drop] at hy
  rw [hsplit] at hs
  refine ⟨y, hy, ?_⟩
  rw [round_scan hb h, offset, hs]
  by_cases hya : Ascii y
  · rw [if_pos hya, if_pos hya]
  · rw [if_neg hya, if_neg hya]

theorem offset_succ {x : Char} (hx : a[p]? = some x) : offset a (p + 1) = offset a p + (encode x).length := by
  obtain ⟨hp, rfl⟩ := List.getElem?_eq_some_iff.1 hx
  obtain ⟨u, c, v, rfl, rfl⟩ := split_at hp
  rw [offset_snoc, offset_append, List.getElem_append_right (Nat.le_refl _)]
  simp only [Nat.sub_self, List.getElem_cons_zero]

/-- Away from traps a round that fails goes on at the next code point. -/
theorem round_next (hb : b ≠ []) (h : p + b.length ≤ a.length) (hno : ¬b <+: a.drop p) (htrap : ¬Trap a b p) :
    round (vstring a) (vstring b) p (offset a p) = .again (p + 1) (offset a (p + 1)) := by
  have hpos := List.length_pos_iff.2 hb
  obtain ⟨y, hy, hr⟩ := round_fails hb h hno
  have hx : a[p]? = some a[p] := List.getElem?_eq_getElem (by omega)
  rw [hr]
  by_cases hya : Ascii y
  · rw [if_pos hya]
    by_cases hxa : Ascii a[p]
    · rw [offset_succ hx, encode_ascii hxa]
      rfl
    · refine absurd ⟨a[p], y, hx, hxa, ?_, hy, hya⟩ htrap
      refine Nat.pos_of_ne_zero fun h0 => ?_
      rw [h0, Nat.add_zero, hx] at hy
      exact hxa (Option.some.inj hy ▸ hya)
  · rw [if_neg hya]

/-- At a trap the round goes on within a code point. -/
theorem round_trap (hb : b ≠ []) (h : p + b.length ≤ a.length) (hno : ¬b <+: a.drop p) (htrap : Trap a b p) :
    ∃ i, round (vstring a) (vstring b) p (offset a p) = .again (p + 1) i ∧ i < offset a (p + 1) := by
  obtain ⟨y, hy, hr⟩ := round_fails hb h hno
  obtain ⟨x, y', hx, hxa, -, hy', hya⟩ := htrap
  obtain rfl : y' = y := Option.some.inj (hy'.symm.trans hy)
  rw [if_pos hya] at hr
  have hlen := one_lt_length_encode hxa
  exact ⟨_, hr, by rw [offset_succ hx]; omega⟩

/-! ## The loop -/

theorem findSubstring_eq (this sub : VString) (c i : Nat) :
    findSubstring this sub c i =
      match round this sub c i with
      | .found c b e => .ok (c, b, e)
      | .notFound => .error .notFound
      | .invalidArg => .error .invalidArg
      | .again c b => findSubstring this sub c b := by
  rw [findSubstring]
  split <;> simp only [*]

/-- The code points from the start on, up to and with `p`, are no place of `b`. -/
def NoneUpTo (a b : List Char) (start p : Nat) : Prop := ∀ q, start ≤ q → q ≤ p → ¬b <+: a.drop q

/-- No trap is met. -/
def NoTraps (a b : List Char) (start : Nat) : Prop :=
  ∀ p, start ≤ p → p + b.length ≤ a.length → NoneUpTo a b start p → ¬Trap a b p

theorem run_spec (hb : b ≠ []) (hclear : NoTraps a b start) (p : Nat) (hp : start ≤ p)
    (hbefore : ∀ q, start ≤ q → q < p → ¬b <+: a.drop q) :
    (∃ p', First a b start p' ∧ findSubstring (vstring a) (vstring b) p (offset a p) =
        .ok (p', offset a p', offset a p' + (bytes b).length)) ∨
      ((∀ q, start ≤ q → ¬b <+: a.drop q) ∧
        findSubstring (vstring a) (vstring b) p (offset a p) = .error .notFound) := by
  rw [findSubstring_eq]
  by_cases hend : a.length < p + b.length
  · rw [round_end hend]
    refine .inr ⟨fun q hq hpre => ?_, rfl⟩
    have hle := hpre.length_le
    rw [List.length_drop] at hle
    have hpos := List.length_pos_iff.2 hb
    exact hbefore q hq (by omega) hpre
  · by_cases hhit : b <+: a.drop p
    · rw [round_hit hb hhit]
      exact .inl ⟨p, ⟨hp, hhit, hbefore⟩, rfl⟩
    · have hupto : ∀ q, start ≤ q → q < p + 1 → ¬b <+: a.drop q := by
        intro q hq hqp
        obtain hlt | rfl := Nat.lt_or_eq_of_le (Nat.le_of_lt_succ hqp)
        · exact hbefore q hq hlt
        · exact hhit
      have htrap := hclear p hp (by omega) fun q hq hqp => hupto q hq (Nat.lt_succ_of_le hqp)
      rw [round_next hb (by omega) hhit htrap]
      exact run_spec hb hclear (p + 1) (by omega) hupto
termination_by a.length + 1 - p
decreasing_by
  have hpos := List.length_pos_iff.2 hb
  omega

/-- Away from traps the loop is at code points, behind which `b` has not been passed. -/
theorem steps_consistent (hb : b ≠ []) (hstart : start ≤ a.length) (hclear : NoTraps a b start) {q : Nat × Nat}
    (h : Steps (vstring a) (vstring b) (start, offset a start) q) :
    start ≤ q.1 ∧ q.1 ≤ a.length ∧ q.2 = offset a q.1 ∧ ∀ r, start ≤ r → r < q.1 → ¬b <+: a.drop r := by
  generalize hs : (start, offset a start) = s at h
  induction h with
  | here =>
    subst hs
    exact ⟨Nat.le_refl _, hstart, rfl, fun r h1 h2 => absurd h1 (Nat.not_le.2 h2)⟩
  | @next q c i _ hr ih =>
    obtain ⟨hge, hle, hoff, hbefore⟩ := ih
    have hpos := List.length_pos_iff.2 hb
    rw [hoff] at hr
    have hend : q.1 + b.length ≤ a.length := by
      refine Nat.le_of_not_lt fun hend => ?_
      rw [round_end hend] at hr
      exact absurd hr (by simp)
    have hno : ¬b <+: a.drop q.1 := by
      intro hhit
      rw [round_hit hb hhit] at hr
      exact absurd hr (by simp)
    have hupto : ∀ r, start ≤ r → r < q.1 + 1 → ¬b <+: a.drop r := by
      intro r h1 h2
      obtain hlt | rfl := Nat.lt_or_eq_of_le (Nat.le_of_lt_succ h2)
      · exact hbefore r h1 hlt
      · exact hno
    rw [round_next hb hend hno (hclear q.1 hge hend fun r h1 h2 => hupto r h1 (Nat.lt_succ_of_le h2))] at hr
    obtain ⟨rfl, rfl⟩ := Round.again.inj hr
    exact ⟨by omega, by omega, rfl, hupto⟩

/-- The loop comes to every code point up to which it is consistent and finds nothing. -/
theorem steps_reach (hb : b ≠ []) (hcons : ∀ c i, Steps (vstring a) (vstring b) (start, offset a start) (c, i) →
      c ≤ a.length ∧ i = offset a c) {p : Nat} (hp : start ≤ p) (hend : p + b.length ≤ a.length)
    (hnone : NoneUpTo a b start p) : Steps (vstring a) (vstring b) (start, offset a start) (p, offset a p) := by
  induction hp with
  | refl => exact .here _
  | @step p hp ih =>
    have hstep := ih (by omega) fun q h1 h2 => hnone q h1 (Nat.le_succ_of_le h2)
    obtain ⟨y, -, hr⟩ := round_fails hb (by omega : p + b.length ≤ a.length) (hnone p hp (Nat.le_succ p))
    by_cases hya : Ascii y
    · rw [if_pos hya] at hr
      have hnext := Steps.next hstep hr
      rwa [(hcons _ _ hnext).2] at hnext
    · rw [if_neg hya] at hr
      exact .next hstep hr

/-- `find_substring` is right from a code point on if and only if it meets no trap before `b` is found or does not fit any
more. -/
theorem finds_iff (hb : b ≠ []) (hstart : start ≤ a.length) : Finds a b start ↔ NoTraps a b start := by
  constructor
  · rintro ⟨-, -, hcons⟩ p hp hend hnone htrap
    have hreach := steps_reach hb hcons hp hend hnone
    obtain ⟨i, hr, hlt⟩ := round_trap hb hend (hnone p hp (Nat.le_refl p)) htrap
    have hnext := Steps.next hreach hr
    obtain ⟨-, heq⟩ := hcons _ _ hnext
    omega
  · intro hclear
    have hrun := run_spec hb hclear start (Nat.le_refl _) fun q h1 h2 => absurd h1 (Nat.not_le.2 h2)
    refine ⟨fun p hp => ?_, fun hnone => ?_, fun c i hs => ?_⟩
    · obtain ⟨p', hp', hfind⟩ | ⟨hno, -⟩ := hrun
      · have h1 : ¬p' < p := fun hlt => hp.2.2 p' hp'.1 hlt hp'.2.1
        have h2 : ¬p < p' := fun hlt => hp'.2.2 p hp.1 hlt hp.2.1
        obtain rfl : p' = p := by omega
        exact hfind
      · exact absurd hp.2.1 (hno p hp.1)
    · obtain ⟨p', hp', -⟩ | ⟨-, hfind⟩ := hrun
      · exact absurd hp'.2.1 (hnone p' hp'.1)
      · exact hfind
    · obtain ⟨-, hle, hoff, -⟩ := steps_consistent hb hstart hclear hs
      exact ⟨hle, hoff⟩

theorem finds_iff_one :
    ['b'] ≠ [] ∧ 0 ≤ ['a', 'b'].length ∧ (Finds ['a', 'b'] ['b'] 0 ↔ NoTraps ['a', 'b'] ['b'] 0) :=
  ⟨by decide, by decide, finds_iff (by decide) (by decide)⟩

/-- In `éaéb` the match of `éb` at 0 fails at `a`, and the next round begins with the second byte of `é`: what is at 2 is not
found. -/
theorem findSubstring_misses :
    First ['é', 'a', 'é', 'b'] ['é', 'b'] 0 2 ∧ ¬Finds ['é', 'a', 'é', 'b'] ['é', 'b'] 0 ∧
      findSubstring (vstring ['é', 'a', 'é', 'b']) (vstring ['é', 'b']) 0 0 = .error .notFound := by
  have first : First ['é', 'a', 'é', 'b'] ['é', 'b'] 0 2 := by
    refine ⟨by decide, by decide, fun q _ hq => ?_⟩
    obtain rfl | rfl : q = 0 ∨ q = 1 := by omega
    · decide
    · decide
  have misses : findSubstring (vstring ['é', 'a', 'é', 'b']) (vstring ['é', 'b']) 0 0 = .error .notFound := by
    rw [findSubstring_eq, show round (vstring ['é', 'a', 'é', 'b']) (vstring ['é', 'b']) 0 0 = .again 1 1 by decide]
    dsimp only
    rw [findSubstring_eq, show round (vstring ['é', 'a', 'é', 'b']) (vstring ['é', 'b']) 1 1 = .again 2 2 by decide]
    dsimp only
    rw [findSubstring_eq, show round (vstring ['é', 'a', 'é', 'b']) (vstring ['é', 'b']) 2 2 = .again 3 3 by decide]
    dsimp only
    rw [findSubstring_eq, show round (vstring ['é', 'a', 'é', 'b']) (vstring ['é', 'b']) 3 3 = .notFound by decide]
  refine ⟨first, fun h => ?_, misses⟩
  have hfound := h.found 2 first
  rw [offset_zero, misses] at hfound
  exact absurd hfound (by simp)

end EvilHaxe.Unicode.EvalString
