/-
When two patterns for one type are coherent, and that the matrix of the compiler keeps its width if they are.
-/
import EvilHaxe.Matcher.ObjectPatterns
import EvilHaxe.Matcher.Scopes

namespace EvilHaxe.Matcher.ExprToPattern

variable {Ty : Type} (Γ : Typer Ty)

/-! ## Two patterns -/

/-- Where the constructors are equal the patterns have as many sub-patterns, for the same fields in the same order. -/
def Coherent (p1 p2 : Pattern) : Prop :=
  ∀ con1 ps1 con2 ps2, p1 = .patConstructor con1 ps1 → p2 = .patConstructor con2 ps2 → con1.equal con2 = true →
    con1 = con2 ∧ ps1.length = ps2.length

/-- One is a constructor with arguments without them, the other a call of it. -/
def BareAndCalled (t : Ty) (locals1 locals2 : Locals) (e1 e2 : Syntax.Expr) : Prop :=
  ∃ con e1' e2', con.arity ≠ 0 ∧ Core Γ e1 e1' ∧ Refers Γ t locals1 e1' con ∧ Core Γ e2 e2' ∧ CallsCon Γ t locals2 e2' con

/-- Any two object declarations in the expressions name the same methods of the type. -/
def NameSameMethods (t : Ty) (e1 e2 : Syntax.Expr) : Prop :=
  ∀ fl1 fl2 n known, Core Γ e1 (.eObjectDecl fl1) → Core Γ e2 (.eObjectDecl fl2) →
    collectFields Γ n t none [] = .ok known → SameMethods known fl1 fl2

theorem Con.eq_of_equal {con1 con2 : Con} (h : con1.equal con2 = true) (hfields : ∀ sl, con1 ≠ .conFields sl) : con1 = con2 := by
  cases con1 <;> cases con2 <;> simp_all [Con.equal]

theorem CallsCon.isEnum {t : Ty} {locals : Locals} {e : Syntax.Expr} {con : Con} (h : CallsCon Γ t locals e con) :
    ∃ en ef, con = .conEnum en ef := by
  obtain ⟨_, _, _, en, ef, -, -, -, h⟩ := h
  exact ⟨en, ef, h⟩

theorem TypesAs.unique {t : Ty} {locals : Locals} {e : Syntax.Expr} {con1 con2 : Con} (h1 : TypesAs Γ t locals e con1)
    (h2 : TypesAs Γ t locals e con2) : con1 = con2 := by
  obtain ⟨typed1, ht1, hc1, -⟩ := h1
  obtain ⟨typed2, ht2, hc2, -⟩ := h2
  rw [ht1] at ht2
  cases ht2
  rw [hc1] at hc2
  cases hc2
  rfl

theorem Refers.unique {t : Ty} {locals : Locals} {e : Syntax.Expr} {con1 con2 : Con} (h1 : Refers Γ t locals e con1)
    (h2 : Refers Γ t locals e con2) : con1 = con2 := by
  cases h1 with
  | ident _ hc1 =>
    cases h2 with
    | ident _ hc2 => exact hc1.unique Γ hc2
    | moduleField _ hno => exact absurd hc1 (hno _)
  | moduleField _ hno ht1 hc1 =>
    cases h2 with
    | ident _ hc2 => exact absurd hc2 (hno _)
    | moduleField _ _ ht2 hc2 =>
      rw [ht1] at ht2
      cases ht2
      rw [hc1] at hc2
      cases hc2
      rfl
  | field hc1 =>
    cases h2 with
    | field hc2 => exact hc1.unique Γ hc2

theorem CallsCon.unique {t : Ty} {locals : Locals} {e : Syntax.Expr} {con1 con2 : Con} (h1 : CallsCon Γ t locals e con1)
    (h2 : CallsCon Γ t locals e con2) : con1 = con2 := by
  obtain ⟨e1, el1, typed1, en1, ef1, rfl, ht1, hd1, rfl⟩ := h1
  obtain ⟨e2, el2, typed2, en2, ef2, he, ht2, hd2, rfl⟩ := h2
  cases he
  rw [ht1] at ht2
  cases ht2
  rw [hd1] at hd2
  cases hd2
  rfl

theorem checkExpr_con : ∀ {e : TypedDef} {con : Con}, checkExpr e = .ok con →
    (∀ sl, con ≠ .conFields sl) ∧ ∀ i, con ≠ .conArray i
  | .fEnum _ _, _, h | .fStatic _ _, _, h | .tConst _, _, h | .tTypeExpr _, _, h => by
    cases h
    exact ⟨nofun, nofun⟩
  | .tCast _, _, h | .tDeprecated _, _, h => checkExpr_con (by simpa only [checkExpr] using h)
  | .fOther, _, h | .other, _, h => by cases h

theorem Refers.con {t : Ty} {locals : Locals} {e : Syntax.Expr} {con : Con} (h : Refers Γ t locals e con) :
    (∀ sl, con ≠ .conFields sl) ∧ ∀ i, con ≠ .conArray i := by
  cases h with
  | ident _ hc => exact checkExpr_con hc.choose_spec.2.1
  | moduleField _ _ _ hc => exact checkExpr_con hc
  | field hc => exact checkExpr_con hc.choose_spec.2.1

section

variable {n : Nat} {pctx : PatternContext} {t : Ty} {e e' : Syntax.Expr} {s s' : PatternState} {p : Pattern}

theorem make_reference {con : Con} (h : Gives (make Γ n pctx t e) s p s') (hc : Core Γ e e')
    (href : Refers Γ t s.locals e' con) : p = .patConstructor con [] := by
  obtain ⟨m, s1, s2, hlocals, h⟩ := loop_core Γ hc h
  rw [← hlocals] at href
  have hresult : ∃ con', p = .patConstructor con' [] ∧ Refers Γ t s1.locals e' con' := by
    cases href with
    | ident hi hc =>
      exact (loop_ident Γ hi h).resolve_right fun hno => hno.2 _ (.ident hi hc)
    | moduleField hi hno ht hc =>
      exact (loop_ident Γ hi h).resolve_right fun h => h.2 _ (.moduleField hi hno ht hc)
    | field => exact loop_field Γ h
  obtain ⟨con', rfl, href'⟩ := hresult
  rw [href.unique Γ href']

theorem make_call {con : Con} (h : Gives (make Γ n pctx t e) s p s') (hc : Core Γ e e')
    (hcalls : CallsCon Γ t s.locals e' con) : ∃ ps, p = .patConstructor con ps ∧ ps.length = con.arity := by
  obtain ⟨m, s1, s2, hlocals, h⟩ := loop_core Γ hc h
  rw [← hlocals] at hcalls
  obtain ⟨e1, el, -, -, -, rfl, -⟩ := id hcalls
  obtain ⟨con', ps, rfl, hcalls', hlen⟩ := loop_call Γ h
  obtain rfl := hcalls.unique Γ hcalls'
  exact ⟨ps, rfl, hlen⟩

theorem make_object {fl : List Syntax.ObjectField} {k : Nat} {known : KnownFields Ty}
    (h : Gives (make Γ n pctx t e) s p s') (hc : Core Γ e (.eObjectDecl fl))
    (hknown : collectFields Γ k t none [] = .ok known) :
    ∃ ps, p = .patConstructor (.conFields (fieldNames fl known)) ps ∧ ps.length = (fieldNames fl known).length := by
  obtain ⟨m, s1, s2, -, h⟩ := loop_core Γ hc h
  obtain ⟨known', ps, hknown', rfl, hlen⟩ := loop_object Γ h
  obtain rfl := collectFields_unique Γ hknown hknown'
  exact ⟨ps, rfl, hlen⟩

end

/-- A head other than an object's has as many sub-patterns as its constructor has arguments, or is a bare constructor. -/
theorem Head.arity {t : Ty} {locals : Locals} {e : Syntax.Expr} {con : Con} {ps : List Pattern}
    (h : Head Γ t locals e con ps) (hfields : ∀ sl, con ≠ .conFields sl) :
    (ps = [] ∧ ∃ e', Core Γ e e' ∧ Refers Γ t locals e' con) ∨
      (ps.length = con.arity ∧ (con.arity = 0 ∨ (∃ i, con = .conArray i) ∨ ∃ e', Core Γ e e' ∧ CallsCon Γ t locals e' con)) := by
  cases h with
  | literal => exact .inr ⟨rfl, .inl rfl⟩
  | reference hc href => exact .inl ⟨rfl, _, hc, href⟩
  | call hc hcalls hlen => exact .inr ⟨hlen, .inr (.inr ⟨_, hc, hcalls⟩)⟩
  | array => exact .inr ⟨rfl, .inr (.inl ⟨_, rfl⟩)⟩
  | object => exact absurd rfl (hfields _)

/-- A constructor without its arguments, and the same constructor with them. -/
theorem bareAndCalled_of_arity {t : Ty} {locals1 locals2 : Locals} {e1 e2 e1' : Syntax.Expr} {con : Con}
    (harity : con.arity ≠ 0) (hc : Core Γ e1 e1') (href : Refers Γ t locals1 e1' con)
    (h : con.arity = 0 ∨ (∃ i, con = .conArray i) ∨ ∃ e', Core Γ e2 e' ∧ CallsCon Γ t locals2 e' con) :
    BareAndCalled Γ t locals1 locals2 e1 e2 := by
  rcases h with h | ⟨i, h⟩ | ⟨e2', hc2, hcalls⟩
  · exact absurd h harity
  · exact absurd h (href.con Γ |>.2 i)
  · exact ⟨con, e1', e2', harity, hc, href, hc2, hcalls⟩

/-- Two patterns for one type are coherent exactly if their object declarations name the same methods, and not one of them
leaves out the arguments of a constructor that the other has. -/
theorem coherent_iff {n1 n2 : Nat} {pctx1 pctx2 : PatternContext} {t : Ty} {e1 e2 : Syntax.Expr}
    {s1 s2 s1' s2' : PatternState} {p1 p2 : Pattern} (h1 : Gives (make Γ n1 pctx1 t e1) s1 p1 s1')
    (h2 : Gives (make Γ n2 pctx2 t e2) s2 p2 s2') :
    Coherent p1 p2 ↔ NameSameMethods Γ t e1 e2 ∧ ¬ BareAndCalled Γ t s1.locals s2.locals e1 e2 ∧
      ¬ BareAndCalled Γ t s2.locals s1.locals e2 e1 := by
  constructor
  · intro h
    refine ⟨?_, ?_, ?_⟩
    · intro fl1 fl2 k known hc1 hc2 hknown
      obtain ⟨ps1, rfl, -⟩ := make_object Γ h1 hc1 hknown
      obtain ⟨ps2, rfl, -⟩ := make_object Γ h2 hc2 hknown
      have hfields := Con.conFields.inj (h _ _ _ _ rfl rfl rfl).1
      have hempty : (names ([] : KnownFields Ty)).Nodup := List.nodup_nil
      exact (fieldNames_eq_iff (collectFields_nodup Γ hempty hknown) fl1 fl2).1 hfields
    · rintro ⟨con, e1', e2', harity, hc1, href, hc2, hcalls⟩
      obtain rfl := make_reference Γ h1 hc1 href
      obtain ⟨ps, rfl, hlen⟩ := make_call Γ h2 hc2 hcalls
      obtain ⟨en, ef, rfl⟩ := hcalls.isEnum Γ
      have := (h _ _ _ _ rfl rfl (by simp [Con.equal])).2
      exact harity (hlen.symm.trans this.symm)
    · rintro ⟨con, e2', e1', harity, hc2, href, hc1, hcalls⟩
      obtain rfl := make_reference Γ h2 hc2 href
      obtain ⟨ps, rfl, hlen⟩ := make_call Γ h1 hc1 hcalls
      obtain ⟨en, ef, rfl⟩ := hcalls.isEnum Γ
      have := (h _ _ _ _ rfl rfl (by simp [Con.equal])).2
      exact harity (hlen.symm.trans this)
  · rintro ⟨hobjects, hbare1, hbare2⟩ con1 ps1 con2 ps2 rfl rfl heq
    have hhead1 := loop_head Γ h1
    have hhead2 := loop_head Γ h2
    by_cases hfields : ∃ sl, con1 = .conFields sl
    · obtain ⟨sl1, rfl⟩ := hfields
      cases hhead1 with
      | reference _ href => exact absurd rfl (href.con Γ |>.1 sl1)
      | call _ hcalls _ => obtain ⟨_, _, h⟩ := hcalls.isEnum Γ; cases h
      | @object fl1 _ known1 _ hc1 hknown1 hlen1 =>
        cases hhead2 with
        | literal => cases heq
        | reference _ href =>
          cases con2 with
          | conFields sl => exact absurd rfl (href.con Γ |>.1 sl)
          | _ => cases heq
        | call _ hcalls _ => obtain ⟨_, _, rfl⟩ := hcalls.isEnum Γ; cases heq
        | array => cases heq
        | @object fl2 _ known2 _ hc2 hknown2 hlen2 =>
          obtain rfl := collectFields_unique Γ hknown1 hknown2
          have hempty : (names ([] : KnownFields Ty)).Nodup := List.nodup_nil
          have hsame := (fieldNames_eq_iff (collectFields_nodup Γ hempty hknown1) fl1 fl2).2
            (hobjects fl1 fl2 _ _ hc1 hc2 hknown1)
          exact ⟨congrArg _ hsame, by rw [hlen1, hlen2, hsame]⟩
    · have hno : ∀ sl, con1 ≠ .conFields sl := fun sl h => hfields ⟨sl, h⟩
      obtain rfl := Con.eq_of_equal heq hno
      refine ⟨rfl, ?_⟩
      by_cases harity : con1.arity = 0
      · have hlen : ∀ {locals e ps}, Head Γ t locals e con1 ps → ps.length = 0 := by
          intro locals e ps hhead
          rcases hhead.arity Γ hno with ⟨rfl, -⟩ | ⟨hlen, -⟩
          · rfl
          · exact hlen.trans harity
        rw [hlen hhead1, hlen hhead2]
      · rcases hhead1.arity Γ hno with ⟨rfl, e1', hc1, href1⟩ | ⟨hlen1, hrest1⟩
        · rcases hhead2.arity Γ hno with ⟨rfl, -⟩ | ⟨-, hrest2⟩
          · rfl
          · exact absurd (bareAndCalled_of_arity Γ harity hc1 href1 hrest2) hbare1
        · rcases hhead2.arity Γ hno with ⟨rfl, e2', hc2, href2⟩ | ⟨hlen2, -⟩
          · exact absurd (bareAndCalled_of_arity Γ harity hc2 href2 hrest1) hbare2
          · rw [hlen1, hlen2]

/-! ## A column of converted patterns -/

/-- The head under the bindings, with its sub-patterns. -/
def headPatterns : Pattern → Option (Con × List Pattern)
  | .patConstructor con ps => some (con, ps)
  | .patBind _ p => headPatterns p
  | _ => none

/-- What a pattern comes from: an expression, and the locals before it. -/
abbrev Source := Syntax.Expr × Locals

/-- If there is a constructor at the head, `make` gives it for the expression and the type. -/
def ConvertedHead (t : Ty) (src : Source) (p : Pattern) : Prop :=
  ∀ con ps, headPatterns p = some (con, ps) → ∃ m pctx s s', s.locals = src.2 ∧
    Gives (make Γ m pctx t src.1) s (.patConstructor con ps) s'

/-- The row begins with such a pattern, and has `n` patterns more. -/
def RowFor (t : Ty) (n : Nat) (src : Source) (r : Row) : Prop :=
  ∃ p rest, r.patterns = p :: rest ∧ rest.length = n ∧ ConvertedHead Γ t src p

/-- The expression leaves out no arguments of a constructor. -/
def NotBare (t : Ty) (src : Source) : Prop := ∀ con e', Core Γ src.1 e' → Refers Γ t src.2 e' con → con.arity = 0

/-- No expression leaves out the arguments of a constructor, and all object declarations name the same methods. -/
structure CoherentColumn (t : Ty) (srcs : List Source) : Prop where
  notBare : ∀ src ∈ srcs, NotBare Γ t src
  sameMethods : ∀ src1 ∈ srcs, ∀ src2 ∈ srcs, NameSameMethods Γ t src1.1 src2.1

variable {t : Ty} {srcs : List Source}

/-- A head has as many sub-patterns as its own constructor has arguments. -/
theorem ConvertedHead.arity {src : Source} {p : Pattern} (h : ConvertedHead Γ t src p) (hbare : NotBare Γ t src) {con : Con}
    {ps : List Pattern} (hp : headPatterns p = some (con, ps)) : ps.length = con.arity := by
  obtain ⟨m, pctx, s, s', hlocals, hmade⟩ := h con ps hp
  cases loop_head Γ hmade with
  | literal => rfl
  | reference hc href => exact (hbare con _ hc (hlocals ▸ href)).symm
  | call _ _ hlen => exact hlen
  | array => rfl
  | object _ _ hlen => exact hlen

/-- Heads that are equal have the same number of arguments. -/
theorem CoherentColumn.arity_eq (h : CoherentColumn Γ t srcs) {src1 src2 : Source} (hsrc1 : src1 ∈ srcs) (hsrc2 : src2 ∈ srcs)
    {p1 p2 : Pattern} (h1 : ConvertedHead Γ t src1 p1) (h2 : ConvertedHead Γ t src2 p2) {con1 con2 : Con}
    {ps1 ps2 : List Pattern} (hp1 : headPatterns p1 = some (con1, ps1)) (hp2 : headPatterns p2 = some (con2, ps2))
    (heq : con1.equal con2 = true) : ps2.length = con1.arity := by
  obtain ⟨m1, pctx1, s1, s1', hl1, hmade1⟩ := h1 con1 ps1 hp1
  obtain ⟨m2, pctx2, s2, s2', hl2, hmade2⟩ := h2 con2 ps2 hp2
  have hcoherent := (coherent_iff Γ hmade1 hmade2).2 ⟨h.sameMethods src1 hsrc1 src2 hsrc2, ?_, ?_⟩
  · rw [← (hcoherent _ _ _ _ rfl rfl heq).2, h1.arity Γ (h.notBare src1 hsrc1) hp1]
  · rintro ⟨con, e', -, harity, hc, href, -⟩
    exact harity (h.notBare src1 hsrc1 con e' hc (hl1 ▸ href))
  · rintro ⟨con, e', -, harity, hc, href, -⟩
    exact harity (h.notBare src2 hsrc2 con e' hc (hl2 ▸ href))

/-- The specialised row has the sub-patterns of its head in front, or wildcards. -/
theorem specializePattern_length {subject : TExpr} {con : Con} {case : Case} :
    ∀ {p : Pattern} {bindings : List (Nat × TExpr)} {rest : List Pattern} {r : Row},
      specializePattern subject con case bindings p rest = some r →
      (∀ con' ps, headPatterns p = some (con', ps) → con.equal con' = true → ps.length = con.arity) →
        r.patterns.length = con.arity + rest.length
  | .patConstructor con' ps, bindings, rest, r, h, hps => by
    unfold specializePattern at h
    split at h
    · next heq =>
      cases h
      rw [List.length_append, hps con' ps rfl heq]
    · cases h
  | .patAny, bindings, rest, r, h, _ => by
    unfold specializePattern at h
    cases h
    rw [List.length_append, List.length_replicate]
  | .patBind v p, bindings, rest, r, h, hps => specializePattern_length (p := p) h hps
  | .patOr _ _, _, _, _, h, _ | .patTuple _, _, _, _, h, _ | .patExtractor _ _, _, _, _, h, _ => by cases h

/-- Specialised by the constructor of one of its rows, the matrix is as wide as there are subjects. -/
theorem specialize_width {n : Nat} {rows : List Row} (hrows : ∀ r ∈ rows, ∃ src ∈ srcs, RowFor Γ t n src r)
    (hcolumn : CoherentColumn Γ t srcs) {r0 : Row} (h0 : r0 ∈ rows) {p0 : Pattern} {rest0 : List Pattern}
    (hr0 : r0.patterns = p0 :: rest0) {con : Con} {ps0 : List Pattern} (hp0 : headPatterns p0 = some (con, ps0))
    (subject : TExpr) :
    ∀ r ∈ specialize subject con rows, r.patterns.length = (getSubSubjects subject con).length + n := by
  intro r' hr'
  obtain ⟨r, hr, hspec⟩ := List.mem_filterMap.1 hr'
  obtain ⟨src0, hsrc0, q0, rest0', hq0, -, hconv0⟩ := hrows r0 h0
  obtain ⟨src, hsrc, p, rest, hp, hlen, hconv⟩ := hrows r hr
  rw [hr0] at hq0
  cases hq0
  unfold specializeRow at hspec
  rw [hp] at hspec
  rw [getSubSubjects_length, ← hlen]
  exact specializePattern_length hspec fun con' ps hhead heq =>
    hcolumn.arity_eq Γ hsrc0 hsrc hconv0 hconv hp0 hhead heq

/-- The constructor is at the head of a row. -/
def IsHead (rows : List Row) (con : Con) : Prop :=
  ∃ r ∈ rows, ∃ p rest ps, r.patterns = p :: rest ∧ headPatterns p = some (con, ps)

/-- When patterns for one type are coherent, and the width of a matrix whose first column holds such patterns. -/
theorem arity_coherence (t : Ty) :
    (∀ n1 n2 pctx1 pctx2 e1 e2 s1 s2 s1' s2' p1 p2, Gives (make Γ n1 pctx1 t e1) s1 p1 s1' →
      Gives (make Γ n2 pctx2 t e2) s2 p2 s2' →
        (Coherent p1 p2 ↔ NameSameMethods Γ t e1 e2 ∧ ¬ BareAndCalled Γ t s1.locals s2.locals e1 e2 ∧
          ¬ BareAndCalled Γ t s2.locals s1.locals e2 e1)) ∧
    ∀ n srcs rows, (∀ r ∈ rows, ∃ src ∈ srcs, RowFor Γ t n src r) → CoherentColumn Γ t srcs → ∀ subject con,
      IsHead rows con → ∀ r ∈ specialize subject con rows,
        r.patterns.length = (getSubSubjects subject con).length + n := by
  constructor
  · exact fun n1 n2 pctx1 pctx2 e1 e2 s1 s2 s1' s2' p1 p2 h1 h2 => coherent_iff Γ h1 h2
  · rintro n srcs rows hrows hcolumn subject con ⟨r0, h0, p0, rest0, ps0, hr0, hp0⟩
    exact specialize_width Γ hrows hcolumn h0 hr0 hp0 subject

/-! ## A structure with a variable and a method -/

/-- Type 0 has the variable `x` and the method `f`; nothing is said of other types. -/
def typer : Typer Nat where
  follow t := t
  shape t := if t = 0 then .tAnon [⟨"x", 1, false, false⟩, ⟨"f", 1, true, false⟩] else .other
  applyParams _ _ t := t
  canAccess _ _ := true
  getUnderlyingType _ _ := 1
  getAbstractFroms _ _ := []
  shallowEq t t' := t == t'
  typeExpr _ _ _ := .error .exit
  typeModuleField _ _ := .error .exit
  generalModuleType _ := .ok ()
  typeConstant _ := .error .exit
  isInterpolated _ := false
  convertStored e := .ok e
  sType _ := "T"
  sExpr _ := "e"
  enum_args h := by cases h

def context : PatternContext := ⟨none, [], false⟩

def start : PatternState := ⟨[], false, [], 0⟩

/-- `name: _` -/
def wildcardField (name : String) : Syntax.ObjectField := .mk name .noQuotes (.eConst (.ident "_"))

/-- `{x: _}` -/
def variablePattern : Syntax.Expr := .eObjectDecl [wildcardField "x"]

/-- `{x: _, f: _}` -/
def methodPattern : Syntax.Expr := .eObjectDecl [wildcardField "x", wildcardField "f"]

theorem make_variablePattern : Gives (make typer 3 context 0 variablePattern) start
    (.patConstructor (.conFields ["x"]) [.patAny]) start := by rfl

theorem make_methodPattern : Gives (make typer 3 context 0 methodPattern) start
    (.patConstructor (.conFields ["x", "f"]) [.patAny, .patAny]) start := by rfl

theorem core_object {fl : List Syntax.ObjectField} {e : Syntax.Expr} (h : Core Γ (.eObjectDecl fl) e) :
    e = .eObjectDecl fl := by
  cases h
  rfl

theorem variablePattern_coherent :
    Coherent (.patConstructor (.conFields ["x"]) [.patAny]) (.patConstructor (.conFields ["x"]) [.patAny]) := by
  refine ((arity_coherence typer 0).1 _ _ _ _ _ _ _ _ _ _ _ _ make_variablePattern make_variablePattern).2 ⟨?_, ?_, ?_⟩
  · intro fl1 fl2 n known h1 h2 _ f _ _
    cases core_object typer h1
    cases core_object typer h2
    exact Iff.rfl
  · rintro ⟨con, e1', -, -, hc, href, -⟩
    cases core_object typer hc
    cases href
  · rintro ⟨con, e1', -, -, hc, href, -⟩
    cases core_object typer hc
    cases href

/-- The two patterns in one column. -/
def methodRows : List Row :=
  [⟨⟨none, 0⟩, [], [.patConstructor (.conFields ["x"]) [.patAny]]⟩,
    ⟨⟨none, 1⟩, [], [.patConstructor (.conFields ["x", "f"]) [.patAny, .patAny]]⟩]

theorem methodPattern_incoherent :
    (Gives (make typer 3 context 0 variablePattern) start (.patConstructor (.conFields ["x"]) [.patAny]) start ∧
      Gives (make typer 3 context 0 methodPattern) start (.patConstructor (.conFields ["x", "f"]) [.patAny, .patAny]) start ∧
      ¬ Coherent (.patConstructor (.conFields ["x"]) [.patAny]) (.patConstructor (.conFields ["x", "f"]) [.patAny, .patAny])) ∧
    (specialize (.tLocal 0) (.conFields ["x"]) methodRows).map (·.patterns.length) = [1, 2] ∧
      (getSubSubjects (.tLocal 0) (.conFields ["x"])).length = 1 := by
  refine ⟨⟨make_variablePattern, make_methodPattern, fun h => ?_⟩, rfl, rfl⟩
  have hlen := (h _ _ _ _ rfl rfl rfl).2
  cases hlen

end EvilHaxe.Matcher.ExprToPattern
