/-
The text of versions: which versions `parse_version` of `semver.ml` reads back from what `to_string` prints.
-/
import EvilHaxe.Escapes.Numerals
import EvilHaxe.Lib.Lines
import EvilHaxe.ParserEntry.Precedence
import Mathlib.Data.List.TakeDrop
import Mathlib.Data.List.TakeWhile
import Mathlib.Data.String.Basic

namespace EvilHaxe.ParserEntry

open EvilHaxe.Escapes Lib

/-! ## Splitting at dots -/

theorem splitOnAux_dot (l m : List Char) (acc : List String) (r : List Char) :
    String.splitOnAux (.ofList (l ++ m ++ r)) "." ⟨String.utf8Len l⟩ ⟨String.utf8Len l + String.utf8Len m⟩ 0 acc =
      acc.reverse ++ (List.splitOnPPrepend (· == '.') r m.reverse).map .ofList := by
  induction r generalizing l m acc with
  | nil =>
    unfold String.splitOnAux
    have hend := String.atEnd_of_valid (l ++ m) []
    have hlast := String.extract_of_valid l m []
    simp_all
  | cons c r ih =>
    unfold String.splitOnAux
    have hend := String.atEnd_of_valid (l ++ m) (c :: r)
    have hget := String.get_of_valid (l ++ m) (c :: r)
    have hnext := String.next_of_valid (l ++ m) c r
    have hpart := String.extract_of_valid l m (c :: r)
    rw [String.utf8Len_append] at hend hget hnext
    have hmore : String.Pos.Raw.atEnd (.ofList (l ++ m ++ c :: r)) ⟨String.utf8Len l + String.utf8Len m⟩ = false :=
      Bool.eq_false_iff.2 fun he => List.cons_ne_nil _ _ (hend.1 he)
    have hdot : String.Pos.Raw.get "." 0 = '.' := by decide
    have hone : String.Pos.Raw.next "." 0 = ⟨1⟩ := by decide
    have hdone : String.Pos.Raw.atEnd "." ⟨1⟩ = true := by decide
    rw [hmore, hget, hdot, hnext, hone]
    simp only [hdone, if_true, if_false, Bool.false_eq_true, List.headD_cons]
    by_cases hc : c = '.'
    · subst hc
      have ih := ih (l ++ m ++ ['.']) [] (.ofList m :: acc)
      have hsize : '.'.utf8Size = 1 := by decide
      have hback : (⟨String.utf8Len l + String.utf8Len m + 1⟩ : String.Pos.Raw).unoffsetBy ⟨1⟩ =
        ⟨String.utf8Len l + String.utf8Len m⟩ := rfl
      have hlen : String.utf8Len ['.'] = 1 := rfl
      rw [if_pos (by decide), List.splitOnPPrepend_cons_pos (by decide), hsize, hback, hpart]
      simpa only [List.append_nil, List.append_assoc, List.singleton_append, String.utf8Len_append, hlen,
        String.utf8Len_nil, Nat.add_zero, Nat.add_assoc, List.reverse_cons, List.reverse_nil,
        List.splitOnPPrepend_nil_right, List.reverse_reverse, List.map_cons] using ih
    · have ih := ih l (m ++ [c]) acc
      have hback : (⟨String.utf8Len l + String.utf8Len m⟩ : String.Pos.Raw).unoffsetBy 0 =
        ⟨String.utf8Len l + String.utf8Len m⟩ := rfl
      rw [if_neg (by simpa using hc), List.splitOnPPrepend_cons_neg (by simpa using hc), hback, hnext]
      simpa only [List.append_assoc, List.singleton_append, String.utf8Len_append, String.utf8Len_cons,
        String.utf8Len_nil, Nat.zero_add, Nat.add_assoc, List.reverse_append, List.reverse_singleton] using ih

theorem splitOn_dot (s : String) : s.splitOn "." = (s.toList.splitOn '.').map .ofList := by
  have h := splitOnAux_dot [] [] [] s.toList
  simpa [String.splitOn, List.splitOn_eq_splitOnP] using h

/-- One part of a dotted text. -/
def partOf (s : String) : SemPart :=
  match intOfString s with
  | some n => .svNum n
  | none => .svStr s

theorem parseParts_ofList (cs : List Char) :
    parseParts (.ofList cs) = if cs = [] then [] else (cs.splitOn '.').map fun part => partOf (.ofList part) := by
  unfold parseParts
  by_cases hcs : cs = []
  · simp [hcs]
  · rw [if_neg (by simpa using hcs), if_neg hcs, splitOn_dot, String.toList_ofList, List.map_map]
    rfl

/-! ## Numbers as they are printed -/

theorem digitBelow_digitChar {d : Nat} (hd : d < 10) : digitBelow 10 d.digitChar = some d := by
  match d with
  | 0 | 1 | 2 | 3 | 4 | 5 | 6 | 7 | 8 | 9 => decide

theorem numeral_toDigits (n : Nat) : numeral 10 (Nat.toDigits 10 n) = n ∧ ∀ d ∈ Nat.toDigits 10 n, IsDigit 10 d := by
  induction n using Nat.strongRecOn with
  | _ n ih =>
    have hdigit {d : Nat} (hd : d < 10) : IsDigit 10 d.digitChar := by
      unfold IsDigit
      rw [digitBelow_digitChar hd]
      rfl
    by_cases hn : n < 10
    · rw [Nat.toDigits_of_lt_base hn]
      refine ⟨?_, fun d hd => ?_⟩
      · simp [numeral, numeralFrom, digitBelow_digitChar hn]
      · obtain rfl := List.mem_singleton.1 hd
        exact hdigit hn
    · have hmod : n % 10 < 10 := Nat.mod_lt _ (by decide)
      obtain ⟨hvalue, hdigits⟩ := ih (n / 10) (by omega)
      rw [Nat.toDigits_of_base_le (by decide) (by omega)]
      refine ⟨?_, fun d hd => ?_⟩
      · rw [numeral, numeralFrom] at hvalue ⊢
        rw [List.foldl_append, hvalue]
        simp only [List.foldl_cons, List.foldl_nil, digitBelow_digitChar hmod, Option.getD_some]
        omega
      · rcases List.mem_append.1 hd with hd | hd
        · exact hdigits d hd
        · obtain rfl := List.mem_singleton.1 hd
          exact hdigit hmod

theorem natOfChars_toDigits (n : Nat) : natOfChars 10 (Nat.toDigits 10 n) = some n := by
  obtain ⟨hvalue, hdigits⟩ := numeral_toDigits n
  rw [natOfChars_eq Nat.toDigits_ne_nil hdigits, hvalue]

/-- No base is named among digits. -/
theorem not_base {ds cs : List Char} (h : ∀ d ∈ ds, IsDigit 10 d) {c : Char} (hc : ¬ IsDigit 10 c) :
    ds ≠ '0' :: c :: cs := by
  rintro rfl
  exact hc (h c (by simp))

theorem not_sign {ds cs : List Char} (h : ∀ d ∈ ds, IsDigit 10 d) {c : Char} (hc : ¬ IsDigit 10 c) : ds ≠ c :: cs := by
  rintro rfl
  exact hc (h c (by simp))

theorem intOfString_digits {ds : List Char} (h : ∀ d ∈ ds, IsDigit 10 d) :
    intOfString (.ofList ds) = (natOfChars 10 ds).bind fun n => if n < 2 ^ 62 then some (n : Int) else none := by
  unfold intOfString
  rw [String.toList_ofList]
  split
  next neg cs hsign =>
    split at hsign
    · exact absurd rfl (not_sign h (c := '-') (by decide))
    · exact absurd rfl (not_sign h (c := '+') (by decide))
    · cases hsign
      simp only [Bool.false_eq_true, if_false]
      split
      iterate 8 exact absurd rfl (not_base h (by decide))
      rfl

theorem intOfString_neg_digits {ds : List Char} (h : ∀ d ∈ ds, IsDigit 10 d) :
    intOfString (.ofList ('-' :: ds)) =
      (natOfChars 10 ds).bind fun n => if n ≤ 2 ^ 62 then some (-(n : Int)) else none := by
  unfold intOfString
  rw [String.toList_ofList]
  simp only
  split
  iterate 8 exact absurd rfl (not_base h (by decide))
  rfl

/-- The integers of the language. -/
def InRange (n : Int) : Prop := -2 ^ 62 ≤ n ∧ n < 2 ^ 62

theorem toList_toString (n : Int) :
    (toString n).toList = if n < 0 then '-' :: Nat.toDigits 10 n.natAbs else Nat.toDigits 10 n.natAbs := by
  cases n with
  | ofNat n => exact Nat.toList_repr
  | negSucc n =>
    rw [if_pos (Int.negSucc_lt_zero n)]
    change ("-" ++ Nat.repr (n + 1)).toList = _
    rw [String.toList_append, Nat.toList_repr]
    rfl

theorem intOfString_toString {n : Int} (h : InRange n) : intOfString (toString n) = some n := by
  have hdigits := (numeral_toDigits n.natAbs).2
  have hvalue := natOfChars_toDigits n.natAbs
  obtain ⟨hlow, hhigh⟩ := h
  rw [← String.ofList_toList (s := toString n), toList_toString]
  by_cases hneg : n < 0
  · rw [if_pos hneg, intOfString_neg_digits hdigits, hvalue]
    simp only [Option.bind_some]
    rw [if_pos (by omega)]
    exact congrArg some (by omega)
  · rw [if_neg hneg, intOfString_digits hdigits, hvalue]
    simp only [Option.bind_some]
    rw [if_pos (by omega)]
    exact congrArg some (by omega)

theorem inRange_bmod (n : Int) : InRange (n.bmod (2 ^ 63)) :=
  ⟨Int.le_bmod (by decide), Int.bmod_lt (by decide)⟩

theorem inRange_of_wrapped {o : Option Nat} {f : Nat → Int} {n : Int}
    (h : (do let m ← o; if m < 2 ^ 63 then some ((f m).bmod (2 ^ 63)) else none) = some n) : InRange n := by
  obtain ⟨m, -, h⟩ := Option.bind_eq_some_iff.1 h
  split at h
  · cases h
    exact inRange_bmod _
  · cases h

theorem inRange_of_intOfString {s : String} {n : Int} (h : intOfString s = some n) : InRange n := by
  unfold intOfString at h
  split at h
  next neg cs hsign =>
    cases neg with
    | true =>
      simp only [if_true] at h
      split at h
      iterate 8 exact inRange_of_wrapped h
      obtain ⟨m, -, h⟩ := Option.bind_eq_some_iff.1 h
      unfold InRange
      split at h <;> cases h
      omega
    | false =>
      simp only [Bool.false_eq_true, if_false] at h
      split at h
      iterate 8 exact inRange_of_wrapped h
      obtain ⟨m, -, h⟩ := Option.bind_eq_some_iff.1 h
      unfold InRange
      split at h <;> cases h
      omega

/-! ## Parts as they are printed -/

/-- What is printed of a part is read as that part. -/
structure SemPart.Reads (p : SemPart) : Prop where
  part : partOf p.toString = p
  noDot : '.' ∉ p.toString.toList

theorem toString_partOf (s : String) :
    (∃ n, InRange n ∧ partOf s = .svNum n) ∨ intOfString s = none ∧ partOf s = .svStr s := by
  unfold partOf
  cases h : intOfString s with
  | some n => exact .inl ⟨n, inRange_of_intOfString h, rfl⟩
  | none => exact .inr ⟨rfl, rfl⟩

/-- A part is printed with digits, a sign and characters of the text it comes from. -/
theorem mem_toString_partOf {s : String} {c : Char} (h : c ∈ (partOf s).toString.toList) :
    IsDigit 10 c ∨ c = '-' ∨ c ∈ s.toList := by
  rcases toString_partOf s with ⟨n, -, heq⟩ | ⟨-, heq⟩ <;> rw [heq] at h
  · change c ∈ (toString n).toList at h
    rw [toList_toString] at h
    have hdigits := (numeral_toDigits n.natAbs).2
    split at h
    · rcases List.mem_cons.1 h with rfl | h
      · exact .inr (.inl rfl)
      · exact .inl (hdigits c h)
    · exact .inl (hdigits c h)
  · exact .inr (.inr h)

theorem reads_partOf {s : String} (h : '.' ∉ s.toList) : (partOf s).Reads where
  part := by
    rcases toString_partOf s with ⟨n, hn, heq⟩ | ⟨hnone, heq⟩ <;> rw [heq]
    · change partOf (toString n) = _
      rw [partOf, intOfString_toString hn]
    · exact heq
  noDot hdot := by
    rcases mem_toString_partOf hdot with hd | hd | hd
    · exact absurd hd (by decide)
    · cases hd
    · exact h hd

theorem reads_of_mem_parseParts {s : String} {p : SemPart} (h : p ∈ parseParts s) : p.Reads := by
  rw [← String.ofList_toList (s := s), parseParts_ofList] at h
  split at h
  · cases h
  · obtain ⟨part, hpart, rfl⟩ := List.mem_map.1 h
    exact reads_partOf (by simpa using not_mem_of_mem_splitOn hpart)

/-- The text of a dotted list. -/
def dotted (ps : List SemPart) : List Char := ['.'].intercalate (ps.map fun p => p.toString.toList)

theorem intercalate_toString (ps : List SemPart) : ".".intercalate (ps.map SemPart.toString) = .ofList (dotted ps) := by
  rw [← String.toList_inj, String.toList_intercalate, List.map_map]
  exact String.toList_ofList.symm

theorem map_partOf {ps : List SemPart} (h : ∀ p ∈ ps, p.Reads) :
    (ps.map fun p => p.toString.toList).map (fun part => partOf (.ofList part)) = ps := by
  rw [List.map_map]
  refine (List.map_congr_left fun p hp => ?_).trans (List.map_id ps)
  simpa using (h p hp).part

theorem parseParts_dotted {ps : List SemPart} (h : ∀ p ∈ ps, p.Reads) (hne : dotted ps ≠ []) :
    parseParts (.ofList (dotted ps)) = ps := by
  have hnil : ps ≠ [] := fun hps => hne (by rw [hps]; rfl)
  rw [parseParts_ofList, if_neg hne, dotted, List.splitOn_intercalate '.' _ (by simpa using hnil), map_partOf h]
  intro l hl
  obtain ⟨p, hp, rfl⟩ := List.mem_map.1 hl
  exact (h p hp).noDot

theorem dotted_eq_nil {ps : List SemPart} (h : dotted ps = []) : ps = [] ∨ ps = [.svStr ""] := by
  match ps with
  | [] => exact .inl rfl
  | [p] =>
    have hempty : p.toString.toList = [] := by simpa [dotted] using h
    cases p with
    | svNum n =>
      change (toString n).toList = [] at hempty
      rw [toList_toString] at hempty
      split at hempty
      · cases hempty
      · exact absurd hempty Nat.toDigits_ne_nil
    | svStr s =>
      obtain rfl := String.toList_eq_nil_iff.1 hempty
      exact .inr rfl
  | p :: q :: ps =>
    rw [dotted, List.map_cons, List.map_cons, List.intercalate_cons_cons] at h
    simp at h

theorem parseParts_ne_empty (s : String) : parseParts s ≠ [.svStr ""] := by
  intro h
  rw [← String.ofList_toList (s := s), parseParts_ofList] at h
  split at h
  · cases h
  next hs =>
    obtain ⟨part, hpart, hmap⟩ := List.map_eq_singleton_iff.1 h
    have hjoin : ['.'].intercalate (s.toList.splitOn '.') = s.toList := List.intercalate_splitOn '.'
    rw [hpart, List.intercalate_singleton] at hjoin
    subst hjoin
    rcases toString_partOf (.ofList s.toList) with ⟨n, -, heq⟩ | ⟨-, heq⟩ <;> rw [heq] at hmap
    · cases hmap
    · rw [String.ofList_toList] at hmap
      injection hmap with hmap
      exact hs (hmap ▸ rfl)

/-- A dotted list that was parsed is read back from its text. -/
theorem parseParts_parseParts (s : String) : parseParts (.ofList (dotted (parseParts s))) = parseParts s := by
  by_cases hne : dotted (parseParts s) = []
  · rcases dotted_eq_nil hne with hnil | hempty
    · rw [hnil]
      rfl
    · exact absurd hempty (parseParts_ne_empty s)
  · exact parseParts_dotted (fun p hp => reads_of_mem_parseParts hp) hne

theorem mem_dotted_parseParts {s : String} {c : Char} (h : c ∈ dotted (parseParts s)) :
    IsDigit 10 c ∨ c = '-' ∨ c = '.' ∨ c ∈ s.toList := by
  rcases mem_of_mem_intercalate h with rfl | ⟨l, hl, hc⟩
  · exact .inr (.inr (.inl rfl))
  obtain ⟨p, hp, rfl⟩ := List.mem_map.1 hl
  rw [← String.ofList_toList (s := s), parseParts_ofList] at hp
  split at hp
  · cases hp
  obtain ⟨part, hpart, rfl⟩ := List.mem_map.1 hp
  rcases mem_toString_partOf hc with hc | hc | hc
  · exact .inl hc
  · exact .inr (.inl hc)
  · rw [String.toList_ofList] at hc
    have hmem : c ∈ ['.'].intercalate _ := mem_intercalate_of_mem hpart hc
    rw [List.intercalate_splitOn] at hmem
    exact .inr (.inr (.inr hmem))

/-! ## Versions -/

/-- The local `parse_release` of `parse_version`, in the parse of `s`. -/
def parseRelease (s dottedStr : String) (pre : Option (List SemPart)) : Except String SemVersion :=
  match parseParts dottedStr with
  | [.svNum major, .svNum minor, .svNum patch] => .ok ⟨.svNum major, .svNum minor, .svNum patch, pre⟩
  | _ => .error ("Invalid version string \"" ++ s ++ "\". Should follow SemVer.")

theorem span_dash {front back : List Char} (h : '-' ∉ front) :
    (front ++ '-' :: back).span (fun c => decide (c ≠ '-')) = (front, '-' :: back) := by
  have hfront : ∀ c ∈ front, decide (c ≠ '-') = true := by
    intro c hc
    exact decide_eq_true fun heq => h (heq ▸ hc)
  rw [List.span_eq_takeWhile_dropWhile, List.takeWhile_append_of_pos hfront, List.dropWhile_append_of_pos hfront]
  simp

theorem parseVersion_release {s : String} (h : '-' ∉ s.toList) : parseVersion s = parseRelease s s none := by
  have hall : ∀ c ∈ s.toList, decide (c ≠ '-') = true := fun c hc => decide_eq_true fun heq => h (heq ▸ hc)
  have hspan : s.toList.span (fun c => decide (c ≠ '-')) = (s.toList, []) := by
    rw [List.span_eq_takeWhile_dropWhile, List.takeWhile_eq_self_iff.2 hall, List.dropWhile_eq_nil_iff.2 hall]
  unfold parseVersion
  rw [hspan]
  rfl

theorem parseVersion_dash {s : String} (front back : List Char) (h : '-' ∉ front)
    (hs : s.toList = front ++ '-' :: back) (hback : back ≠ []) :
    parseVersion s = parseRelease s (.ofList front) (some (parseParts (.ofList (back.takeWhile (· ≠ '+'))))) := by
  obtain ⟨c, cs, rfl⟩ := List.exists_cons_of_ne_nil hback
  unfold parseVersion
  rw [hs, span_dash h]
  rfl

theorem parseVersion_trailing {s : String} (front : List Char) (h : '-' ∉ front) (hs : s.toList = front ++ ['-'])
    (v : SemVersion) : parseVersion s ≠ .ok v := by
  unfold parseVersion
  rw [hs, span_dash h]
  nofun

/-- A parsed version has a release of three numbers and, if any, a pre-release without a plus sign. -/
structure Parsed (v : SemVersion) : Prop where
  release : ∃ s, parseParts s = v.release
  numbers : ∃ a b c, v.release = [.svNum a, .svNum b, .svNum c]
  pre : ∀ pre, v.pre = some pre → ∃ s : String, '+' ∉ s.toList ∧ parseParts s = pre

theorem parseRelease_ok {s d : String} {pre : Option (List SemPart)} {v : SemVersion} :
    parseRelease s d pre = .ok v ↔
      parseParts d = v.release ∧ (∃ a b c, v.release = [.svNum a, .svNum b, .svNum c]) ∧ v.pre = pre := by
  unfold parseRelease SemVersion.release
  split
  next a b c heq =>
    constructor
    · intro h
      cases h
      exact ⟨heq, ⟨a, b, c, rfl⟩, rfl⟩
    · rintro ⟨hparts, -, hpre⟩
      rw [heq] at hparts
      cases v
      simp_all
  next hne =>
    constructor
    · nofun
    · rintro ⟨hparts, ⟨a, b, c, hrelease⟩, -⟩
      exact absurd (hparts.trans hrelease) (hne a b c)

theorem dash_or (s : String) : '-' ∉ s.toList ∨ ∃ front back, '-' ∉ front ∧ s.toList = front ++ '-' :: back := by
  by_cases h : '-' ∈ s.toList
  · obtain ⟨front, back, hs, hfront⟩ := List.eq_append_cons_of_mem h
    exact .inr ⟨front, back, hfront, hs⟩
  · exact .inl h

theorem parsed_of_parse {s : String} {v : SemVersion} (h : parseVersion s = .ok v) : Parsed v := by
  rcases dash_or s with hdash | ⟨front, back, hfront, hs⟩
  · rw [parseVersion_release hdash, parseRelease_ok] at h
    obtain ⟨hparts, hnumbers, hpre⟩ := h
    exact ⟨⟨s, hparts⟩, hnumbers, fun pre hsome => by rw [hpre] at hsome; cases hsome⟩
  by_cases hback : back = []
  · subst hback
    exact absurd h (parseVersion_trailing _ hfront hs v)
  · rw [parseVersion_dash _ _ hfront hs hback, parseRelease_ok] at h
    obtain ⟨hparts, hnumbers, hpre⟩ := h
    refine ⟨⟨_, hparts⟩, hnumbers, fun pre hsome => ⟨_, ?_, Option.some.inj (hpre.symm.trans hsome)⟩⟩
    rw [String.toList_ofList]
    intro hmem
    simpa using List.mem_takeWhile_imp hmem

/-- No number of the release is negative. -/
def Natural (v : SemVersion) : Prop := ∀ n, .svNum n ∈ v.release → 0 ≤ n

theorem toList_toString_version (v : SemVersion) :
    v.toString.toList = dotted v.release ++ (match v.pre with
      | none => []
      | some pre => '-' :: dotted pre) := by
  unfold SemVersion.toString
  rw [String.toList_append, intercalate_toString, String.toList_ofList]
  cases v.pre with
  | none => rfl
  | some pre =>
    change _ ++ ("-" ++ ".".intercalate (pre.map SemPart.toString)).toList = _
    rw [String.toList_append, intercalate_toString]
    exact congrArg (dotted v.release ++ '-' :: ·) String.toList_ofList

/-! ## Reading what was printed -/

theorem dash_not_mem_number {n : Int} (h : 0 ≤ n) : '-' ∉ (SemPart.svNum n).toString.toList := by
  change '-' ∉ (toString n).toList
  rw [toList_toString, if_neg (by omega)]
  intro hmem
  exact absurd ((numeral_toDigits n.natAbs).2 '-' hmem) (by decide)

theorem dash_not_mem_dotted {ps : List SemPart} (h : ∀ p ∈ ps, ∃ n, 0 ≤ n ∧ p = .svNum n) : '-' ∉ dotted ps := by
  intro hmem
  rcases mem_of_mem_intercalate hmem with heq | ⟨l, hl, hc⟩
  · cases heq
  · obtain ⟨p, hp, rfl⟩ := List.mem_map.1 hl
    obtain ⟨n, hn, rfl⟩ := h p hp
    exact dash_not_mem_number hn hc

theorem dash_not_mem_release {v : SemVersion} (h : Parsed v) (hnat : Natural v) : '-' ∉ dotted v.release := by
  obtain ⟨a, b, c, hrelease⟩ := h.numbers
  refine dash_not_mem_dotted fun p hp => ?_
  have hmem := hp
  rw [hrelease] at hmem
  simp only [List.mem_cons, List.not_mem_nil, or_false] at hmem
  rcases hmem with rfl | rfl | rfl <;> exact ⟨_, hnat _ hp, rfl⟩

/-- Up to the sign of its first negative number a release is no release. -/
theorem dotted_negative (ps : List SemPart) {rest : List SemPart} {n : Int} (hps : ∀ p ∈ ps, ∃ m, 0 ≤ m ∧ p = .svNum m)
    (hreads : ∀ p ∈ ps, p.Reads) (hn : n < 0) :
    ∃ front back, dotted (ps ++ .svNum n :: rest) = front ++ '-' :: back ∧ '-' ∉ front ∧
      ∀ a b c, parseParts (.ofList front) ≠ [.svNum a, .svNum b, .svNum c] := by
  let texts := ps.map fun p => p.toString.toList
  have hnumber : (SemPart.svNum n).toString.toList = '-' :: Nat.toDigits 10 n.natAbs := by
    change (toString n).toList = _
    rw [toList_toString, if_pos hn]
  have hback : ∃ back, dotted (.svNum n :: rest) = '-' :: back := by
    cases rest with
    | nil => exact ⟨Nat.toDigits 10 n.natAbs, by rw [dotted, List.map_singleton, List.intercalate_singleton, hnumber]⟩
    | cons p rest =>
      refine ⟨Nat.toDigits 10 n.natAbs ++ ['.'] ++ dotted (p :: rest), ?_⟩
      rw [dotted, List.map_cons, List.map_cons, List.intercalate_cons_cons, hnumber]
      rfl
  obtain ⟨back, hback⟩ := hback
  refine ⟨unlines '.' texts, back, ?_, ?_, ?_⟩
  · rw [← hback, dotted, List.map_append, List.map_cons, intercalate_append_cons]
    rfl
  · intro hmem
    obtain ⟨l, hl, hc⟩ := List.mem_flatMap.1 hmem
    obtain ⟨p, hp, rfl⟩ := List.mem_map.1 hl
    obtain ⟨m, hm, rfl⟩ := hps p hp
    rcases List.mem_append.1 hc with hc | hc
    · exact dash_not_mem_number hm hc
    · cases List.mem_singleton.1 hc
  · intro a b c heq
    have hdots : ∀ l ∈ texts, '.' ∉ l := by
      intro l hl
      obtain ⟨p, hp, rfl⟩ := List.mem_map.1 hl
      exact (hreads p hp).noDot
    rw [parseParts_ofList] at heq
    split at heq
    · cases heq
    · -- behind the last dot there is an empty part, which is no number
      rw [splitOn_unlines hdots, List.map_append, List.map_singleton] at heq
      have hlast : some (partOf (.ofList [])) = some (.svNum c) := by
        rw [← List.getLast?_concat, heq]
        rfl
      cases hlast

theorem parseVersion_negative {v : SemVersion} (h : Parsed v) (hneg : ¬ Natural v) (w : SemVersion) :
    parseVersion v.toString ≠ .ok w := by
  obtain ⟨s, hs⟩ := h.release
  have hreads : ∀ p ∈ v.release, p.Reads := fun p hp => reads_of_mem_parseParts (hs ▸ hp)
  obtain ⟨a, b, c, hrelease⟩ := h.numbers
  have hfront : ∃ front back, dotted v.release = front ++ '-' :: back ∧ '-' ∉ front ∧
      ∀ a b c, parseParts (.ofList front) ≠ [.svNum a, .svNum b, .svNum c] := by
    rw [hrelease] at hreads ⊢
    by_cases ha : a < 0
    · exact dotted_negative [] nofun nofun ha
    by_cases hb : b < 0
    · refine dotted_negative [.svNum a] (fun p hp => ?_) (fun p hp => hreads p ?_) hb
      · exact ⟨a, by omega, List.mem_singleton.1 hp⟩
      · exact List.mem_cons.2 (.inl (List.mem_singleton.1 hp))
    by_cases hc : c < 0
    · refine dotted_negative [.svNum a, .svNum b] (fun p hp => ?_) (fun p hp => hreads p ?_) hc
      · rcases List.mem_cons.1 hp with rfl | hp
        · exact ⟨a, by omega, rfl⟩
        · exact ⟨b, by omega, List.mem_singleton.1 hp⟩
      · exact List.mem_append_left [.svNum c] hp
    · refine absurd (fun n hn => ?_) hneg
      rw [hrelease] at hn
      simp only [List.mem_cons, SemPart.svNum.injEq, List.not_mem_nil, or_false] at hn
      omega
  obtain ⟨front, back, hdotted, hdash, hnone⟩ := hfront
  have htext : ∃ back', v.toString.toList = front ++ '-' :: back' :=
    ⟨_, by rw [toList_toString_version, hdotted, List.append_assoc]; rfl⟩
  obtain ⟨back', htext⟩ := htext
  by_cases hback : back' = []
  · subst hback
    exact parseVersion_trailing _ hdash htext w
  · rw [parseVersion_dash _ _ hdash htext hback]
    intro hok
    obtain ⟨hparts, ⟨a, b, c, hw⟩, -⟩ := parseRelease_ok.1 hok
    exact hnone a b c (hparts.trans hw)

theorem parseVersion_natural {v : SemVersion} (h : Parsed v) (hnat : Natural v) (hpre : v.pre ≠ some []) :
    parseVersion v.toString = .ok v := by
  obtain ⟨s, hs⟩ := h.release
  have hdash := dash_not_mem_release h hnat
  have hread : parseParts (.ofList (dotted v.release)) = v.release := by
    rw [← hs]
    exact parseParts_parseParts s
  have htext := toList_toString_version v
  cases hcase : v.pre with
  | none =>
    rw [hcase, List.append_nil] at htext
    rw [parseVersion_release (htext ▸ hdash), parseRelease_ok, ← String.ofList_toList (s := v.toString), htext]
    exact ⟨hread, h.numbers, hcase⟩
  | some pre =>
    rw [hcase] at htext
    obtain ⟨d, hplus, hd⟩ := h.pre pre hcase
    have hne : dotted pre ≠ [] := by
      intro hnil
      rcases dotted_eq_nil hnil with rfl | rfl
      · exact hpre hcase
      · exact parseParts_ne_empty d hd
    have hall : (dotted pre).takeWhile (· ≠ '+') = dotted pre := by
      refine List.takeWhile_eq_self_iff.2 fun c hc => decide_eq_true ?_
      rintro rfl
      rw [← hd] at hc
      rcases mem_dotted_parseParts hc with hc | hc | hc | hc
      · exact absurd hc (by decide)
      · cases hc
      · cases hc
      · exact hplus hc
    rw [parseVersion_dash _ _ hdash htext hne, parseRelease_ok, hall, ← hd, parseParts_parseParts, hd]
    exact ⟨hread, h.numbers, hcase⟩

/-- A version that was parsed is read back from its text exactly when no number of its release is negative and its
pre-release, if it has one, is not empty. -/
theorem parseVersion_toString_iff (s : String) (v : SemVersion) (h : parseVersion s = .ok v) :
    parseVersion v.toString = .ok v ↔ v.pre ≠ some [] ∧ Natural v := by
  have hparsed := parsed_of_parse h
  constructor
  · intro hok
    by_cases hnat : Natural v
    · refine ⟨fun hpre => ?_, hnat⟩
      have htext := toList_toString_version v
      rw [hpre] at htext
      exact parseVersion_trailing _ (dash_not_mem_release hparsed hnat) htext v hok
    · exact absurd hok (parseVersion_negative hparsed hnat v)
  · rintro ⟨hpre, hnat⟩
    exact parseVersion_natural hparsed hnat hpre

theorem parseVersion_prerelease :
    parseVersion "1.2.3-rc.1+b" = .ok ⟨.svNum 1, .svNum 2, .svNum 3, some [.svStr "rc", .svNum 1]⟩ := by
  rw [parseVersion_dash "1.2.3".toList "rc.1+b".toList (by decide) (by decide) (by decide),
    parseRelease_ok, parseParts_ofList, parseParts_ofList]
  exact ⟨by decide, ⟨1, 2, 3, rfl⟩, by decide⟩

/-- `parseVersion_toString_iff` at a version with a pre-release and build metadata, which is lost. -/
theorem parseVersion_toString_iff_prerelease :
    parseVersion (SemVersion.toString ⟨.svNum 1, .svNum 2, .svNum 3, some [.svStr "rc", .svNum 1]⟩) =
      .ok ⟨.svNum 1, .svNum 2, .svNum 3, some [.svStr "rc", .svNum 1]⟩ :=
  (parseVersion_toString_iff "1.2.3-rc.1+b" _ parseVersion_prerelease).2
    ⟨by decide, fun n hn => by
      simp only [SemVersion.release, List.mem_cons, SemPart.svNum.injEq, List.not_mem_nil, or_false] at hn
      omega⟩

/-- Behind `1.2.3-` only build metadata stands. The version is accepted, with an empty pre-release, and printed as a
text that is refused. -/
theorem emptyPrerelease_refused :
    ¬ ∀ v, (∃ s, parseVersion s = .ok v) → parseVersion v.toString = .ok v := by
  intro h
  have hparse : parseVersion "1.2.3-+b" = .ok ⟨.svNum 1, .svNum 2, .svNum 3, some []⟩ := by
    rw [parseVersion_dash "1.2.3".toList "+b".toList (by decide) (by decide) (by decide),
      parseRelease_ok, parseParts_ofList, parseParts_ofList]
    exact ⟨by decide, ⟨1, 2, 3, rfl⟩, by decide⟩
  refine parseVersion_trailing "1.2.3".toList (by decide) ?_ _ (h _ ⟨_, hparse⟩)
  rw [toList_toString_version]
  decide

end EvilHaxe.ParserEntry
