/-
The order of versions: `compare_version` of `semver.ml` decides the precedence that Semantic Versioning gives them.
-/
import EvilHaxe.ParserEntry.Eval

namespace EvilHaxe.ParserEntry

open Std

/-! ## Precedence -/

/-- One identifier is lower than another: numbers compare by value and come before words, words compare by their
characters. -/
inductive SemPart.Lower : SemPart → SemPart → Prop
  | numbers {m n : Int} (h : m < n) : Lower (.svNum m) (.svNum n)
  | words {s t : String} (h : s < t) : Lower (.svStr s) (.svStr t)
  | number_word (n : Int) (s : String) : Lower (.svNum n) (.svStr s)

def SemVersion.release (v : SemVersion) : List SemPart := [v.major, v.minor, v.patch]

/-- One version comes before another. The release decides; among equal releases a pre-release comes before the version
without one, and two pre-releases compare by their identifiers, one by one, a list before each longer one it begins. -/
inductive SemVersion.Precedes (a b : SemVersion) : Prop
  | release (h : List.Lex SemPart.Lower a.release b.release)
  | preRelease {pre : List SemPart} (h : a.release = b.release) (ha : a.pre = some pre) (hb : b.pre = none)
  | identifiers {pre1 pre2 : List SemPart} (h : a.release = b.release) (ha : a.pre = some pre1)
      (hb : b.pre = some pre2) (hlex : List.Lex SemPart.Lower pre1 pre2)

/-! ## Identifiers -/

theorem compareParts_eq_lt {v1 v2 : SemPart} : compareParts v1 v2 = .lt ↔ v1.Lower v2 := by
  constructor
  · intro h
    cases v1 with
    | svNum m =>
      cases v2 with
      | svNum n => exact .numbers (Int.compare_eq_lt.1 h)
      | svStr s => exact .number_word m s
    | svStr s =>
      cases v2 with
      | svNum n => cases h
      | svStr t => exact .words (compareOfLessAndEq_eq_lt.1 h)
  · rintro (h | h | ⟨n, s⟩)
    · exact Int.compare_eq_lt.2 h
    · exact compareOfLessAndEq_eq_lt.2 h
    · rfl

instance : LawfulEqCmp compareParts where
  compare_self {v} := by
    cases v with
    | svNum n => exact ReflOrd.compare_self
    | svStr s => exact ReflOrd.compare_self
  eq_of_compare {v1 v2} h := by
    cases v1 with
    | svNum m =>
      cases v2 with
      | svNum n => exact congrArg _ (LawfulEqOrd.eq_of_compare h)
      | svStr s => cases h
    | svStr s =>
      cases v2 with
      | svNum n => cases h
      | svStr t => exact congrArg _ (LawfulEqOrd.eq_of_compare h)

instance : TransCmp compareParts where
  eq_swap {v1 v2} := by
    cases v1 with
    | svNum m =>
      cases v2 with
      | svNum n => exact OrientedOrd.eq_swap
      | svStr s => rfl
    | svStr s =>
      cases v2 with
      | svNum n => rfl
      | svStr t => exact OrientedOrd.eq_swap
  isLE_trans {v1 v2 v3} h12 h23 := by
    cases v1 with
    | svNum l =>
      cases v3 with
      | svNum n =>
        cases v2 with
        | svNum m => exact TransOrd.isLE_trans h12 h23
        | svStr s => cases h23
      | svStr s => rfl
    | svStr s =>
      cases v2 with
      | svNum m => cases h12
      | svStr t =>
        cases v3 with
        | svNum n => cases h23
        | svStr u => exact TransOrd.isLE_trans h12 h23

/-! ## Lists of identifiers -/

theorem compareLists_eq : ∀ l1 l2 : List SemPart, compareLists l1 l2 = List.compareLex compareParts l1 l2
  | [], [] | [], _ :: _ | _ :: _, [] => rfl
  | v1 :: rest1, v2 :: rest2 => by
    rw [compareLists, compareLists_eq rest1 rest2, List.compareLex_cons_cons]

instance : LawfulEqCmp compareLists := by
  rw [funext fun l1 => funext fun l2 => compareLists_eq l1 l2]
  infer_instance

instance : TransCmp compareLists := by
  rw [funext fun l1 => funext fun l2 => compareLists_eq l1 l2]
  infer_instance

theorem compareLists_eq_lt : ∀ {l1 l2 : List SemPart}, compareLists l1 l2 = .lt ↔ List.Lex SemPart.Lower l1 l2
  | [], [] => ⟨nofun, nofun⟩
  | [], v2 :: rest2 => ⟨fun _ => .nil, fun _ => rfl⟩
  | v1 :: rest1, [] => ⟨nofun, nofun⟩
  | v1 :: rest1, v2 :: rest2 => by
    rw [compareLists, Ordering.then_eq_lt, compareParts_eq_lt, compareLists_eq_lt]
    constructor
    · rintro (h | ⟨heq, h⟩)
      · exact .rel h
      · obtain rfl := LawfulEqCmp.eq_of_compare heq
        exact .cons h
    · intro h
      cases h with
      | rel h => exact .inl h
      | cons h => exact .inr ⟨ReflCmp.compare_self, h⟩

/-! ## Versions -/

/-- The pre-releases of two versions of one release. -/
def comparePre : Option (List SemPart) → Option (List SemPart) → Ordering
  | none, none => .eq
  | none, some _ => .gt
  | some _, none => .lt
  | some pre1, some pre2 => compareLists pre1 pre2

theorem compareVersion_eq (a b : SemVersion) :
    compareVersion a b = (compareLists a.release b.release).then (comparePre a.pre b.pre) := by
  unfold compareVersion comparePre
  cases a.pre <;> cases b.pre <;> rfl

instance : LawfulEqCmp comparePre where
  compare_self {p} := by
    cases p with
    | none => rfl
    | some pre => exact (ReflCmp.compare_self : compareLists pre pre = .eq)
  eq_of_compare {p q} h := by
    cases p with
    | none =>
      cases q with
      | none => rfl
      | some pre2 => cases h
    | some pre1 =>
      cases q with
      | none => cases h
      | some pre2 => exact congrArg _ (LawfulEqCmp.eq_of_compare (h : compareLists pre1 pre2 = .eq))

instance : TransCmp comparePre where
  eq_swap {p q} := by
    cases p with
    | none => cases q <;> rfl
    | some pre1 =>
      cases q with
      | none => rfl
      | some pre2 => exact (OrientedCmp.eq_swap : compareLists pre1 pre2 = _)
  isLE_trans {p q r} hpq hqr := by
    cases r with
    | none => cases p <;> rfl
    | some pre3 =>
      cases q with
      | none => cases hqr
      | some pre2 =>
        cases p with
        | none => cases hpq
        | some pre1 => exact (TransCmp.isLE_trans hpq hqr : (compareLists pre1 pre3).isLE)

theorem release_inj {a b : SemVersion} (h : a.release = b.release) (hpre : a.pre = b.pre) : a = b := by
  cases a
  cases b
  simp_all [SemVersion.release]

theorem compareVersion_eq_eq {a b : SemVersion} : compareVersion a b = .eq ↔ a = b := by
  rw [compareVersion_eq, Ordering.then_eq_eq]
  constructor
  · rintro ⟨hrelease, hpre⟩
    exact release_inj (LawfulEqCmp.eq_of_compare hrelease) (LawfulEqCmp.eq_of_compare hpre)
  · rintro rfl
    exact ⟨ReflCmp.compare_self, ReflCmp.compare_self⟩

theorem compareVersion_swap (a b : SemVersion) : compareVersion a b = (compareVersion b a).swap := by
  rw [compareVersion_eq, compareVersion_eq, Ordering.swap_then,
    ← (OrientedCmp.eq_swap : compareLists a.release b.release = _),
    ← (OrientedCmp.eq_swap : comparePre a.pre b.pre = _)]

theorem compareVersion_trans {a b c : SemVersion} (hab : (compareVersion a b).isLE) (hbc : (compareVersion b c).isLE) :
    (compareVersion a c).isLE := by
  rw [compareVersion_eq, Ordering.isLE_then_iff_and] at *
  refine ⟨TransCmp.isLE_trans hab.1 hbc.1, ?_⟩
  rcases hab.2 with hlt | hpre
  · exact .inl (TransCmp.lt_of_lt_of_isLE hlt hbc.1)
  rcases hbc.2 with hlt | hpre'
  · exact .inl (TransCmp.lt_of_isLE_of_lt hab.1 hlt)
  · exact .inr (TransCmp.isLE_trans hpre hpre')

theorem compareVersion_eq_lt {a b : SemVersion} : compareVersion a b = .lt ↔ a.Precedes b := by
  rw [compareVersion_eq, Ordering.then_eq_lt, compareLists_eq_lt]
  constructor
  · rintro (h | ⟨heq, h⟩)
    · exact .release h
    have hrelease := LawfulEqCmp.eq_of_compare heq
    rcases ha : a.pre with _ | pre1
    · rcases hb : b.pre with _ | pre2 <;> rw [ha, hb] at h <;> cases h
    · rcases hb : b.pre with _ | pre2
      · exact .preRelease hrelease ha hb
      · rw [ha, hb] at h
        exact .identifiers hrelease ha hb (compareLists_eq_lt.1 h)
  · rintro (h | ⟨h, ha, hb⟩ | ⟨h, ha, hb, hlex⟩)
    · exact .inl h
    · rw [h, ha, hb]
      exact .inr ⟨ReflCmp.compare_self, rfl⟩
    · rw [h, ha, hb]
      exact .inr ⟨ReflCmp.compare_self, compareLists_eq_lt.2 hlex⟩

/-- `compare_version` orders the versions totally, finds no two of them equal that differ, and puts one before another
exactly where Semantic Versioning does. -/
theorem compareVersion_isPrecedence :
    (∀ a, compareVersion a a = .eq) ∧ (∀ a b, compareVersion a b = (compareVersion b a).swap) ∧
      (∀ a b c, (compareVersion a b).isLE → (compareVersion b c).isLE → (compareVersion a c).isLE) ∧
      (∀ a b, compareVersion a b = .eq ↔ a.release = b.release ∧ a.pre = b.pre) ∧
      (∀ a b, compareVersion a b = .lt ↔ a.Precedes b) ∧ (∀ a b, compareVersion a b = .gt ↔ b.Precedes a) := by
  refine ⟨fun a => compareVersion_eq_eq.2 rfl, compareVersion_swap, fun a b c => compareVersion_trans, fun a b => ?_,
    fun a b => compareVersion_eq_lt, fun a b => ?_⟩
  · rw [compareVersion_eq_eq]
    constructor
    · rintro rfl
      exact ⟨rfl, rfl⟩
    · rintro ⟨hrelease, hpre⟩
      exact release_inj hrelease hpre
  · rw [compareVersion_swap, Ordering.swap_eq_gt]
    exact compareVersion_eq_lt

end EvilHaxe.ParserEntry
