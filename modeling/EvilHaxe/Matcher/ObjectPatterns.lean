/-
Which sub-patterns a converted pattern has. `Constructor.equal` does not look at the fields of an object pattern, and these
depend on the pattern: a variable of the type always has a sub-pattern, a method only where the pattern names it.
-/
import EvilHaxe.Matcher.Conversion
import Mathlib.Data.List.Nodup

namespace EvilHaxe.Matcher.ExprToPattern

variable {Ty : Type} (Γ : Typer Ty)

-- the proofs below unfold these functions: their equations are derived once, here
attribute [local grind =] fieldAssoc matchFields checkFieldNames callArgs arrayPattern loop

/-! ## The fields of an object pattern -/

/-- The object declaration has a field of this name. -/
def Named (fl : List Syntax.ObjectField) (name : String) : Prop := (fieldAssoc name fl).isSome

instance (fl : List Syntax.ObjectField) (name : String) : Decidable (Named fl name) :=
  inferInstanceAs (Decidable (_ = true))

/-- The declaration that gives a name its pattern. -/
theorem mem_of_fieldAssoc {fl : List Syntax.ObjectField} {name : String} {e : Syntax.Expr} (h : fieldAssoc name fl = some e) :
    ∃ qs, .mk name qs e ∈ fl := by
  induction fl with
  | nil => cases h
  | cons f fl ih =>
    obtain ⟨name', qs', e'⟩ := f
    unfold fieldAssoc at h
    split at h
    · next heq => cases h; subst heq; exact ⟨qs', List.mem_cons_self⟩
    · obtain ⟨qs, hmem⟩ := ih h
      exact ⟨qs, List.mem_cons_of_mem _ hmem⟩

/-- What `matchFields` makes of the known fields: it leaves out no variable, and no field that is not named. -/
inductive Matched (fl : List Syntax.ObjectField) : KnownFields Ty → List String → List String → Prop where
  | nil {fields : List String} : Matched fl [] fields fields
  | keep {cf : TClassField Ty} {t : Ty} {known : KnownFields Ty} {fields fields' : List String} :
      (cf.isMethod = true → Named fl cf.cfName) → Matched fl known (cf.cfName :: fields) fields' →
      Matched fl ((cf, t) :: known) fields fields'
  | skip {cf : TClassField Ty} {t : Ty} {known : KnownFields Ty} {fields fields' : List String} :
      cf.isMethod = true → Matched fl known fields fields' → Matched fl ((cf, t) :: known) fields fields'

theorem matchFields_spec {make : Ty → Syntax.Expr → PatternM Pattern} {fl : List Syntax.ObjectField} :
    ∀ {known : KnownFields Ty} {acc acc' : List Pattern × List String} {s s' : PatternState},
      Gives (matchFields make fl known acc) s acc' s' → acc.1.length = acc.2.length →
        Matched fl known acc.2 acc'.2 ∧ acc'.1.length = acc'.2.length
  | [], acc, acc', s, s', h, hlen => by
    obtain ⟨rfl, -⟩ := gives_pure.1 h
    exact ⟨.nil, hlen⟩
  | (cf, t) :: known, (patterns, fields), acc', s, s', h, hlen => by
    unfold matchFields at h
    obtain ⟨acc1, s1, hfield, h⟩ := gives_bind.1 h
    rcases gives_tryCatch.1 hfield with hfield | ⟨e, s2, -, he⟩
    · obtain ⟨s2, s3, -, hfield⟩ := gives_bind.1 hfield
      obtain ⟨u, s4, -, hfield⟩ := gives_bind.1 hfield
      split at hfield
      · exact absurd hfield not_gives_throw
      · next e1 he1 =>
        obtain ⟨pat, s5, -, hfield⟩ := gives_bind.1 hfield
        obtain ⟨rfl, -⟩ := gives_pure.1 hfield
        obtain ⟨hm, hl⟩ := matchFields_spec h (congrArg (· + 1) hlen)
        exact ⟨.keep (fun _ => by unfold Named; rw [he1]; rfl) hm, hl⟩
    · have hskip : (cf.isMethod = true ∧ acc1 = (patterns, fields)) ∨
          (cf.isMethod = false ∧ acc1 = (.patAny :: patterns, cf.cfName :: fields)) := by
        split at he
        · obtain ⟨rfl, -⟩ := gives_pure.1 he
          cases hm : cf.isMethod with
          | true => exact .inl ⟨rfl, by simp [isMatchable, hm]⟩
          | false => exact .inr ⟨rfl, by simp [isMatchable, hm]⟩
        · exact absurd he not_gives_throw
      rcases hskip with ⟨hm, rfl⟩ | ⟨hm, rfl⟩
      · obtain ⟨hmatched, hl⟩ := matchFields_spec h hlen
        exact ⟨.skip hm hmatched, hl⟩
      · obtain ⟨hmatched, hl⟩ := matchFields_spec h (congrArg (· + 1) hlen)
        exact ⟨.keep (fun hmethod => by rw [hm] at hmethod; cases hmethod) hmatched, hl⟩

theorem checkFieldNames_spec {t : Ty} {fields : List String} : ∀ {fl : List Syntax.ObjectField} {u : Unit}
    {s s' : PatternState}, Gives (checkFieldNames Γ t fields fl) s u s' →
      ∀ name qs e, .mk name qs e ∈ fl → name ∈ fields
  | [], _, _, _, _, _, _, _, h => by cases h
  | .mk name' qs' e' :: fl, u, s, s', h, name, qs, e, hmem => by
    unfold checkFieldNames at h
    obtain ⟨u1, s1, hcheck, h⟩ := gives_bind.1 h
    rcases List.mem_cons.1 hmem with hmem | hmem
    · cases hmem
      exact not_not.1 (gives_raiseIf.1 hcheck).1
    · exact checkFieldNames_spec h name qs e hmem

/-- The fields of the pattern, by what it names. -/
def fieldNames (fl : List Syntax.ObjectField) (known : KnownFields Ty) : List String :=
  (names (known.filter fun f => !f.1.isMethod || Named fl f.1.cfName)).reverse

theorem Matched.mem {fl : List Syntax.ObjectField} {known : KnownFields Ty} {fields fields' : List String}
    (h : Matched fl known fields fields') {name : String} (hmem : name ∈ fields') : name ∈ fields ∨ name ∈ names known := by
  induction h with
  | nil => exact .inl hmem
  | keep _ _ ih =>
    rcases ih hmem with h | h
    · rcases List.mem_cons.1 h with rfl | h
      · exact .inr List.mem_cons_self
      · exact .inl h
    · exact .inr (List.mem_cons_of_mem _ h)
  | skip _ _ ih => exact (ih hmem).imp_right (List.mem_cons_of_mem _)

/-- No named field is left out if all of them are among the fields. -/
theorem Matched.eq {fl : List Syntax.ObjectField} {known : KnownFields Ty} {fields fields' : List String}
    (h : Matched fl known fields fields') (hnodup : (names known).Nodup) (hnew : ∀ name ∈ names known, name ∉ fields)
    (hnamed : ∀ name, Named fl name → name ∈ fields') : fields' = fieldNames fl known ++ fields := by
  induction h with
  | nil => rfl
  | @keep cf t known fields fields' hkeep _ ih =>
    obtain ⟨hnot, hnodup⟩ := List.nodup_cons.1 hnodup
    have hthis : (!cf.isMethod || decide (Named fl cf.cfName)) = true := by
      cases hm : cf.isMethod with
      | false => rfl
      | true => simp [hkeep hm]
    rw [ih hnodup ?_ hnamed]
    · simp [fieldNames, names, hthis]
    · intro name hname hmem
      rcases List.mem_cons.1 hmem with rfl | hmem
      · exact hnot hname
      · exact hnew name (List.mem_cons_of_mem _ hname) hmem
  | @skip cf t known fields fields' hm hrest ih =>
    obtain ⟨hnot, hnodup⟩ := List.nodup_cons.1 hnodup
    have hunnamed : ¬ Named fl cf.cfName := by
      intro hn
      rcases hrest.mem (hnamed _ hn) with h | h
      · exact hnew _ List.mem_cons_self h
      · exact hnot h
    rw [ih hnodup (fun name hname => hnew name (List.mem_cons_of_mem _ hname)) hnamed]
    simp [fieldNames, names, hm, hunnamed]

/-- An object pattern has one sub-pattern for each of its fields. -/
theorem objectPattern_spec {make : Ty → Syntax.Expr → PatternM Pattern} {n : Nat} {t : Ty} {fl : List Syntax.ObjectField}
    {s s' : PatternState} {pat : Pattern} (h : Gives (objectPattern Γ make n t fl) s pat s') :
    ∃ known ps, collectFields Γ n t none [] = .ok known ∧ pat = .patConstructor (.conFields (fieldNames fl known)) ps ∧
      ps.length = (fieldNames fl known).length := by
  unfold objectPattern at h
  obtain ⟨known, s1, hknown, h⟩ := gives_bind.1 h
  obtain ⟨hfound, rfl⟩ := gives_lift.1 hknown
  obtain ⟨⟨ps, fields⟩, s2, hmatch, h⟩ := gives_bind.1 h
  obtain ⟨u, s3, hcheck, h⟩ := gives_bind.1 h
  obtain ⟨rfl, -⟩ := gives_pure.1 h
  obtain ⟨hmatched, hlen⟩ := matchFields_spec hmatch rfl
  have hempty : (names ([] : KnownFields Ty)).Nodup := List.nodup_nil
  have hfields : fields = fieldNames fl known := by
    have := hmatched.eq (collectFields_nodup Γ hempty hfound) (fun _ _ => List.not_mem_nil) ?_
    · simpa using this
    · intro name hname
      obtain ⟨e, he⟩ := Option.isSome_iff_exists.1 hname
      obtain ⟨qs, hmem⟩ := mem_of_fieldAssoc he
      exact checkFieldNames_spec Γ hcheck name qs e hmem
  subst hfields
  exact ⟨known, ps, hfound, rfl, hlen⟩

/-- The two declarations name the same methods. -/
def SameMethods (known : KnownFields Ty) (fl1 fl2 : List Syntax.ObjectField) : Prop :=
  ∀ f ∈ known, f.1.isMethod = true → (Named fl1 f.1.cfName ↔ Named fl2 f.1.cfName)

/-- Their patterns have the same fields, in the same order, exactly if they do. -/
theorem fieldNames_eq_iff {known : KnownFields Ty} (hnodup : (names known).Nodup) (fl1 fl2 : List Syntax.ObjectField) :
    fieldNames fl1 known = fieldNames fl2 known ↔ SameMethods known fl1 fl2 := by
  unfold fieldNames names
  rw [List.reverse_inj]
  constructor
  · intro heq f hf hm
    have hmem : ∀ fl : List Syntax.ObjectField, Named fl f.1.cfName ↔
        f.1.cfName ∈ (known.filter fun f => !f.1.isMethod || Named fl f.1.cfName).map fun f => f.1.cfName := by
      intro fl
      constructor
      · intro hn
        exact List.mem_map.2 ⟨f, List.mem_filter.2 ⟨hf, by simp [hn]⟩, rfl⟩
      · intro hn
        obtain ⟨g, hg, hname⟩ := List.mem_map.1 hn
        obtain ⟨hg, hkept⟩ := List.mem_filter.1 hg
        obtain rfl := List.inj_on_of_nodup_map hnodup hg hf hname
        simpa [hm] using hkept
    rw [hmem fl1, hmem fl2, heq]
  · intro h
    refine congrArg _ (List.filter_congr fun f hf => ?_)
    cases hm : f.1.isMethod with
    | false => rfl
    | true =>
      rw [Bool.not_true, Bool.false_or, Bool.false_or]
      exact decide_eq_decide.2 (h f hf hm)

/-! ## The head of a pattern -/

/-- What `loop` looks through. -/
inductive Core : Syntax.Expr → Syntax.Expr → Prop where
  | refl (e : Syntax.Expr) : Core e e
  | parenthesis {e1 e : Syntax.Expr} : Core e1 e → Core (.eParenthesis e1) e
  | cast {e1 e : Syntax.Expr} : Core e1 e → Core (.eCast e1 none) e
  | reified {e1 e : Syntax.Expr} {params : List Syntax.TypeParamOrConst} {sub : Option String} : Core e1 e →
      Core (.eCheckType e1 (.ctPath (.mk ["haxe", "macro"] "Expr" params sub))) e
  | display {e1 e : Syntax.Expr} {dk : Syntax.DisplayKind} : Core e1 e → Core (.eDisplay e1 dk) e
  | stored {e1 e2 e : Syntax.Expr} {params : List Syntax.Expr} : Γ.convertStored e1 = .ok e2 → Core e2 e →
      Core (.eMeta (.mk ":storedTypedExpr" params) e1) e

/-- The typer finds a constructor for the expression. -/
def TypesAs (t : Ty) (locals : Locals) (e : Syntax.Expr) (con : Con) : Prop :=
  ∃ typed, Γ.typeExpr locals e (some t) = .ok typed ∧ checkExpr typed.eexpr = .ok con ∧
    ∀ mt, con = .conTypeExpr mt → Γ.generalModuleType mt = .ok ()

/-- An identifier or a field for which the typer finds a constructor; for an identifier it looks in the type's module, too. -/
inductive Refers (t : Ty) (locals : Locals) : Syntax.Expr → Con → Prop where
  | ident {i : String} {con : Con} : i ∉ ["false", "true", "_"] → TypesAs Γ t locals (.eConst (.ident i)) con →
      Refers t locals (.eConst (.ident i)) con
  | moduleField {i : String} {typed : Typed Ty} {con : Con} : i ∉ ["false", "true", "_"] →
      (∀ con, ¬ TypesAs Γ t locals (.eConst (.ident i)) con) →
      Γ.typeModuleField t i = .ok typed → checkExpr typed.eexpr = .ok con → Refers t locals (.eConst (.ident i)) con
  | field {e : Syntax.Expr} {f : String} {efk : Syntax.EFieldKind} {con : Con} :
      TypesAs Γ t locals (.eField e f efk) con → Refers t locals (.eField e f efk) con

/-- A call of a constructor. -/
def CallsCon (t : Ty) (locals : Locals) (e : Syntax.Expr) (con : Con) : Prop :=
  ∃ e1 el typed en ef, e = .eCall e1 el ∧ Γ.typeExpr locals e1 (some t) = .ok typed ∧ typed.eexpr = .fEnum en ef ∧
    con = .conEnum en ef

/-- Where a pattern with a constructor comes from, and how many sub-patterns it has. -/
inductive Head (t : Ty) (locals : Locals) (e : Syntax.Expr) : Con → List Pattern → Prop where
  | literal {c : TConstant} : Head t locals e (.conConst c) []
  | reference {e' : Syntax.Expr} {con : Con} : Core Γ e e' → Refers Γ t locals e' con → Head t locals e con []
  | call {e' : Syntax.Expr} {con : Con} {ps : List Pattern} : Core Γ e e' → CallsCon Γ t locals e' con →
      ps.length = con.arity → Head t locals e con ps
  | array {ps : List Pattern} : Head t locals e (.conArray ps.length) ps
  | object {fl : List Syntax.ObjectField} {n : Nat} {known : KnownFields Ty} {ps : List Pattern} :
      Core Γ e (.eObjectDecl fl) → collectFields Γ n t none [] = .ok known → ps.length = (fieldNames fl known).length →
      Head t locals e (.conFields (fieldNames fl known)) ps

/-- The head of what is inside. -/
theorem Head.of_core {t : Ty} {locals : Locals} {e e1 : Syntax.Expr} {con : Con} {ps : List Pattern}
    (hcore : ∀ e', Core Γ e1 e' → Core Γ e e') (h : Head Γ t locals e1 con ps) : Head Γ t locals e con ps := by
  cases h with
  | literal => exact .literal
  | reference hc hr => exact .reference (hcore _ hc) hr
  | call hc hcalls hlen => exact .call (hcore _ hc) hcalls hlen
  | array => exact .array
  | object hc hk hlen => exact .object (hcore _ hc) hk hlen

theorem unifyPattern_iff {con : Con} {s s' : PatternState} {u : Unit} :
    Gives (unifyPattern Γ con) s u s' ↔ (∀ mt, con = .conTypeExpr mt → Γ.generalModuleType mt = .ok ()) ∧ s = s' := by
  unfold unifyPattern
  split
  · next mt =>
    refine gives_lift.trans (and_congr_left fun _ => ?_)
    constructor
    · rintro h mt' ⟨⟩; exact h
    · exact fun h => h mt rfl
  · next hno =>
    refine gives_pure.trans ⟨fun h => ⟨fun mt hmt => absurd hmt (hno mt), h.2⟩, fun h => ⟨rfl, h.2⟩⟩

theorem tryTyping_iff {t : Ty} {e : Syntax.Expr} {s s' : PatternState} {p : Pattern} :
    Gives (tryTyping Γ t e) s p s' ↔ ∃ con, TypesAs Γ t s.locals e con ∧ p = .patConstructor con [] ∧ s' = s := by
  unfold tryTyping
  constructor
  · intro h
    obtain ⟨s1, s2, hget, h⟩ := gives_bind.1 h
    obtain ⟨rfl, rfl⟩ := gives_get.1 hget
    obtain ⟨typed, s3, h1, h⟩ := gives_bind.1 h
    obtain ⟨htyped, rfl⟩ := gives_lift.1 h1
    obtain ⟨con, s4, h2, h⟩ := gives_bind.1 h
    obtain ⟨hcon, rfl⟩ := gives_lift.1 h2
    obtain ⟨u, s5, h3, h⟩ := gives_bind.1 h
    obtain ⟨hmt, rfl⟩ := (unifyPattern_iff Γ).1 h3
    obtain ⟨rfl, rfl⟩ := gives_pure.1 h
    exact ⟨con, ⟨typed, htyped, hcon, hmt⟩, rfl, rfl⟩
  · rintro ⟨con, ⟨typed, htyped, hcon, hmt⟩, rfl, rfl⟩
    refine gives_bind.2 ⟨s', s', gives_get.2 ⟨rfl, rfl⟩, ?_⟩
    refine gives_bind.2 ⟨typed, s', gives_lift.2 ⟨htyped, rfl⟩, ?_⟩
    refine gives_bind.2 ⟨con, s', gives_lift.2 ⟨hcon, rfl⟩, ?_⟩
    exact gives_bind.2 ⟨(), s', (unifyPattern_iff Γ).2 ⟨hmt, rfl⟩, gives_pure.2 ⟨rfl, rfl⟩⟩

theorem callArgs_length {make : Ty → Syntax.Expr → PatternM Pattern} {el : List Syntax.Expr} {args : List (Bool × Ty)} :
    ∀ {s s' : PatternState} {ps : List Pattern}, Gives (callArgs make el args) s ps s' → ps.length = args.length := by
  induction el, args using callArgs.induct with
  | case1 =>
    intro s s' ps h
    obtain ⟨rfl, -⟩ := gives_pure.1 h
    rfl
  | case2 opt t0 t tl ih =>
    intro s s' ps h
    obtain ⟨ps1, s1, h1, h⟩ := gives_bind.1 h
    obtain ⟨rfl, -⟩ := gives_pure.1 h
    exact congrArg (· + 1) (ih h1)
  | case3 e el opt t tl hne1 hne2 ih =>
    intro s s' ps h
    rw [callArgs] at h
    · obtain ⟨ps1, s1, h1, h⟩ := gives_bind.1 h
      obtain ⟨pat, s2, -, h⟩ := gives_bind.1 h
      obtain ⟨rfl, -⟩ := gives_pure.1 h
      exact congrArg (· + 1) (ih h1)
    · exact hne1
    · exact hne2
  | case4 t tl ih =>
    intro s s' ps h
    obtain ⟨ps1, s1, h1, h⟩ := gives_bind.1 h
    obtain ⟨rfl, -⟩ := gives_pure.1 h
    exact congrArg (· + 1) (ih h1)
  | case5 =>
    intro s s' ps h
    obtain ⟨rfl, -⟩ := gives_pure.1 h
    rfl
  | case6 t hopt hne =>
    intro s s' ps h
    rw [callArgs] at h
    · exact absurd h not_gives_throw
    · exact hopt
    · exact hne
  | case7 el hne =>
    intro s s' ps h
    rw [callArgs] at h
    · exact absurd h not_gives_throw
    · exact hne

/-- A pattern that is no constructor. -/
def NoCon : Pattern → Prop
  | .patConstructor _ _ => False
  | _ => True

theorem arrayPattern_spec {make : Ty → Syntax.Expr → PatternM Pattern} {fail : PatternM Pattern} {el : List Syntax.Expr}
    (hfail : ∀ s p s', ¬ Gives fail s p s') : ∀ {n : Nat} {seen : List Ty} {t : Ty} {s s' : PatternState} {p : Pattern},
      Gives (arrayPattern Γ make fail el n seen t) s p s' → NoCon p ∨ ∃ ps, p = .patConstructor (.conArray ps.length) ps
  | 0, _, _, _, _, _, h => absurd h not_gives_throw
  | n + 1, seen, t, s, s', p, h => by
    have harray : ∀ t2 s s', Gives (do
        let patterns ← el.mapM (make t2)
        pure (.patConstructor (.conArray patterns.length) patterns) : PatternM Pattern) s p s' →
        ∃ ps, p = .patConstructor (.conArray ps.length) ps := by
      intro t2 s s' h
      obtain ⟨ps, s1, -, h⟩ := gives_bind.1 h
      obtain ⟨rfl, -⟩ := gives_pure.1 h
      exact ⟨ps, rfl⟩
    unfold arrayPattern at h
    split at h
    · obtain ⟨ps, s1, -, h⟩ := gives_bind.1 h
      obtain ⟨rfl, -⟩ := gives_pure.1 h
      exact .inl trivial
    · exact .inr (harray _ _ _ h)
    · exact .inr (harray _ _ _ h)
    · split at h
      · exact absurd h (hfail _ _ _)
      · split at h
        · exact arrayPattern_spec hfail h
        · exact absurd h (hfail _ _ _)
    · exact absurd h (hfail _ _ _)

theorem extractorPattern_noCon {make : Ty → Syntax.Expr → PatternM Pattern} {pctx : PatternContext} {e1 e2 : Syntax.Expr}
    {s s' : PatternState} {p : Pattern} (h : Gives (extractorPattern Γ make pctx e1 e2) s p s') : NoCon p := by
  unfold extractorPattern at h
  obtain ⟨s1, s2, -, h⟩ := gives_bind.1 h
  obtain ⟨u, s3, -, h⟩ := gives_bind.1 h
  obtain ⟨v, s4, -, h⟩ := gives_bind.1 h
  obtain ⟨s5, s6, -, h⟩ := gives_bind.1 h
  obtain ⟨typed, s7, -, h⟩ := gives_bind.1 h
  obtain ⟨u, s8, -, h⟩ := gives_bind.1 h
  obtain ⟨pat, s9, -, h⟩ := gives_bind.1 h
  obtain ⟨rfl, -⟩ := gives_pure.1 h
  trivial

/-- What raises does not return. -/
theorem Raises.not_gives {α : Type} {q : PatternM α} {s s1 s2 : PatternState} {e : PatternError} {a : α}
    (h : Raises q s e s1) : ¬ Gives q s a s2 := by
  intro h'
  unfold Gives at h'
  rw [h] at h'
  cases h'

theorem unifyPattern_raises {con : Con} {s s1 : PatternState} {exc : PatternError}
    (h : Raises (unifyPattern Γ con) s exc s1) : s1 = s := by
  unfold unifyPattern at h
  split at h
  · exact (raises_lift.1 h).2.symm
  · cases h

theorem tryTyping_raises {t : Ty} {e : Syntax.Expr} {s s1 : PatternState} {exc : PatternError}
    (h : Raises (tryTyping Γ t e) s exc s1) : s1 = s ∧ ∀ con, ¬ TypesAs Γ t s.locals e con := by
  refine ⟨?_, fun con hcon => h.not_gives ((tryTyping_iff Γ).2 ⟨con, hcon, rfl, rfl⟩)⟩
  unfold tryTyping at h
  rcases raises_bind.1 h with h | ⟨s2, s3, hget, h⟩
  · cases h
  · obtain ⟨rfl, rfl⟩ := gives_get.1 hget
    rcases raises_bind.1 h with h | ⟨typed, s3, h1, h⟩
    · exact (raises_lift.1 h).2.symm
    · obtain ⟨-, rfl⟩ := gives_lift.1 h1
      rcases raises_bind.1 h with h | ⟨con, s4, h2, h⟩
      · exact (raises_lift.1 h).2.symm
      · obtain ⟨-, rfl⟩ := gives_lift.1 h2
        rcases raises_bind.1 h with h | ⟨u, s5, -, h⟩
        · exact unifyPattern_raises Γ h
        · cases h

/-- An identifier: what the typer finds, in the end a variable. -/
theorem handleIdent_spec {pctx : PatternContext} {t : Ty} {i : String} {s s' : PatternState} {p : Pattern}
    (hi : i ∉ ["false", "true", "_"]) (h : Gives (handleIdent Γ pctx t i) s p s') :
    (∃ con, p = .patConstructor con [] ∧ Refers Γ t s.locals (.eConst (.ident i)) con) ∨
      (NoCon p ∧ ∀ con, ¬ Refers Γ t s.locals (.eConst (.ident i)) con) := by
  unfold handleIdent at h
  rcases gives_tryCatch.1 h with h | ⟨e, s1, hraise, h⟩
  · obtain ⟨con, hcon, rfl, -⟩ := (tryTyping_iff Γ).1 h
    exact .inl ⟨con, rfl, .ident hi hcon⟩
  · obtain ⟨rfl, hno⟩ := tryTyping_raises Γ hraise
    have hmodule : Gives (tryCatch (do
        let typed ← Γ.typeModuleField t i
        let con ← checkExpr typed.eexpr
        pure (.patConstructor con []))
        fun _ => do
          let v ← addLocal pctx i
          pure (.patBind v .patAny) : PatternM Pattern) s1 p s' →
        (∃ con, p = .patConstructor con [] ∧ Refers Γ t s1.locals (.eConst (.ident i)) con) ∨
          (NoCon p ∧ ∀ con, ¬ Refers Γ t s1.locals (.eConst (.ident i)) con) := by
      intro h
      rcases gives_tryCatch.1 h with h | ⟨e, s2, hraise, h⟩
      · obtain ⟨typed, s2, h1, h⟩ := gives_bind.1 h
        obtain ⟨htyped, rfl⟩ := gives_lift.1 h1
        obtain ⟨con, s3, h2, h⟩ := gives_bind.1 h
        obtain ⟨hcon, rfl⟩ := gives_lift.1 h2
        obtain ⟨rfl, -⟩ := gives_pure.1 h
        exact .inl ⟨con, rfl, .moduleField hi hno htyped hcon⟩
      · obtain ⟨v, s3, -, h⟩ := gives_bind.1 h
        obtain ⟨rfl, -⟩ := gives_pure.1 h
        refine .inr ⟨trivial, fun con href => ?_⟩
        cases href with
        | ident _ hcon => exact hno con hcon
        | moduleField _ _ htyped hcon =>
          refine @Raises.not_gives _ _ _ _ s1 _ (.patConstructor con []) hraise ?_
          refine gives_bind.2 ⟨_, s1, gives_lift.2 ⟨htyped, rfl⟩, ?_⟩
          exact gives_bind.2 ⟨con, s1, gives_lift.2 ⟨hcon, rfl⟩, gives_pure.2 ⟨rfl, rfl⟩⟩
    cases e with
    | exit => exact hmodule h
    | badPattern msg => exact hmodule h
    | notFound => exact absurd h not_gives_throw
    | error msg => exact absurd h not_gives_throw
    | outOfFuel => exact absurd h not_gives_throw

/-! ## The cases of `loop` -/

section

variable {n : Nat} {pctx : PatternContext} {t : Ty} {e0 : Syntax.Expr} {s s' : PatternState} {p : Pattern}

theorem loop_ident {i : String} (hi : i ∉ ["false", "true", "_"])
    (h : Gives (loop Γ (n + 1) pctx t e0 (.eConst (.ident i))) s p s') :
    (∃ con, p = .patConstructor con [] ∧ Refers Γ t s.locals (.eConst (.ident i)) con) ∨
      (NoCon p ∧ ∀ con, ¬ Refers Γ t s.locals (.eConst (.ident i)) con) := by
  have hbool : ¬ (i = "false" ∨ i = "true") := by
    rintro (rfl | rfl) <;> exact hi (by decide)
  have hwild : i ≠ "_" := by
    rintro rfl
    exact hi (by decide)
  unfold loop at h
  simp only [if_neg hbool, if_neg hwild] at h
  split at h
  · exact absurd h not_gives_throw
  · exact handleIdent_spec Γ hi h

theorem loop_wildcard {i : String} (hi : i ∈ ["false", "true", "_"])
    (h : Gives (loop Γ (n + 1) pctx t e0 (.eConst (.ident i))) s p s') :
    NoCon p ∨ ∃ c, p = .patConstructor (.conConst c) [] := by
  unfold loop at h
  by_cases hbool : i = "false" ∨ i = "true"
  · simp only [if_pos hbool] at h
    obtain ⟨c, s1, -, h⟩ := gives_bind.1 h
    obtain ⟨rfl, -⟩ := gives_pure.1 h
    exact .inr ⟨c, rfl⟩
  · obtain rfl : i = "_" := by simpa [or_assoc, not_or.1 hbool] using hi
    simp only [if_neg hbool, if_true] at h
    split at h <;> obtain ⟨rfl, -⟩ := gives_pure.1 h <;> exact .inl trivial

theorem loop_field {e : Syntax.Expr} {f : String} {efk : Syntax.EFieldKind}
    (h : Gives (loop Γ (n + 1) pctx t e0 (.eField e f efk)) s p s') :
    ∃ con, p = .patConstructor con [] ∧ Refers Γ t s.locals (.eField e f efk) con := by
  unfold loop at h
  rcases gives_tryCatch.1 h with h | ⟨exc, s1, -, h⟩
  · obtain ⟨con, hcon, rfl, -⟩ := (tryTyping_iff Γ).1 h
    exact ⟨con, rfl, .field hcon⟩
  · cases exc <;> exact absurd h not_gives_throw

theorem loop_call {e1 : Syntax.Expr} {el : List Syntax.Expr} (h : Gives (loop Γ (n + 1) pctx t e0 (.eCall e1 el)) s p s') :
    ∃ con ps, p = .patConstructor con ps ∧ CallsCon Γ t s.locals (.eCall e1 el) con ∧ ps.length = con.arity := by
  unfold loop at h
  obtain ⟨s1, s2, hget, h⟩ := gives_bind.1 h
  obtain ⟨rfl, rfl⟩ := gives_get.1 hget
  obtain ⟨typed, s3, h1, h⟩ := gives_bind.1 h
  obtain ⟨htyped, rfl⟩ := gives_lift.1 h1
  split at h
  · next en ef args hdef hshape =>
    obtain ⟨ps, s4, hargs, h⟩ := gives_bind.1 h
    obtain ⟨rfl, -⟩ := gives_pure.1 h
    refine ⟨_, ps, rfl, ⟨e1, el, typed, en, ef, rfl, htyped, hdef, rfl⟩, ?_⟩
    rw [callArgs_length hargs, Γ.enum_args htyped hdef hshape]
  · exact absurd h not_gives_throw

theorem loop_object {fl : List Syntax.ObjectField} (h : Gives (loop Γ (n + 1) pctx t e0 (.eObjectDecl fl)) s p s') :
    ∃ known ps, collectFields Γ (n + 1) t none [] = .ok known ∧
      p = .patConstructor (.conFields (fieldNames fl known)) ps ∧ ps.length = (fieldNames fl known).length := by
  unfold loop at h
  exact objectPattern_spec Γ h

/-- What `loop` looks through does not change the pattern. -/
theorem loop_core {e e' : Syntax.Expr} (hc : Core Γ e e') : ∀ {n : Nat} {s s' : PatternState},
    Gives (loop Γ n pctx t e0 e) s p s' →
      ∃ m s1 s1', s1.locals = s.locals ∧ Gives (loop Γ (m + 1) pctx t e0 e') s1 p s1' := by
  induction hc with
  | refl e =>
    intro n s s' h
    cases n with
    | zero => exact absurd h not_gives_throw
    | succ n => exact ⟨n, s, s', rfl, h⟩
  | parenthesis _ ih | cast _ ih | display _ ih =>
    intro n s s' h
    cases n with
    | zero => exact absurd h not_gives_throw
    | succ n =>
      unfold loop at h
      exact ih h
  | reified _ ih =>
    intro n s s' h
    cases n with
    | zero => exact absurd h not_gives_throw
    | succ n =>
      unfold loop at h
      obtain ⟨s1, s2, hget, h⟩ := gives_bind.1 h
      obtain ⟨rfl, rfl⟩ := gives_get.1 hget
      obtain ⟨u, s3, h1, h⟩ := gives_bind.1 h
      obtain rfl := gives_modify.1 h1
      obtain ⟨pat, s4, hpat, h⟩ := gives_bind.1 h
      obtain ⟨u, s5, -, h⟩ := gives_bind.1 h
      obtain ⟨rfl, -⟩ := gives_pure.1 h
      obtain ⟨m, s6, s7, hlocals, h⟩ := ih hpat
      exact ⟨m, s6, s7, hlocals, h⟩
  | stored hconvert _ ih =>
    intro n s s' h
    cases n with
    | zero => exact absurd h not_gives_throw
    | succ n =>
      unfold loop at h
      obtain ⟨e2, s1, h1, h⟩ := gives_bind.1 h
      obtain ⟨h2, rfl⟩ := gives_lift.1 h1
      rw [hconvert] at h2
      cases h2
      exact ih h

end

/-- Every pattern with a constructor at its head comes from such an expression. -/
theorem loop_head : ∀ {n : Nat} {pctx : PatternContext} {t : Ty} {e0 e : Syntax.Expr} {s s' : PatternState} {con : Con}
    {ps : List Pattern}, Gives (loop Γ n pctx t e0 e) s (.patConstructor con ps) s' → Head Γ t s.locals e con ps
  | 0, _, _, _, _, _, _, _, _, h => absurd h not_gives_throw
  | n + 1, pctx, t, e0, e, s, s', con, ps, h => by
    have hconst : ∀ {ct s1 s2}, Gives (do
        let c ← Γ.typeConstant ct
        pure (.patConstructor (.conConst c) []) : PatternM Pattern) s1 (.patConstructor con ps) s2 →
        Head Γ t s.locals e con ps := by
      intro ct s1 s2 h
      obtain ⟨c, s1, -, h⟩ := gives_bind.1 h
      cases (gives_pure.1 h).1
      exact .literal
    have hnocon : NoCon (.patConstructor con ps) → Head Γ t s.locals e con ps := False.elim
    have hhead := h
    unfold loop at h
    split at h
    · exact (loop_head h).of_core Γ fun _ => .parenthesis
    · exact (loop_head h).of_core Γ fun _ => .cast
    · obtain ⟨s1, s2, hget, h⟩ := gives_bind.1 h
      obtain ⟨rfl, rfl⟩ := gives_get.1 hget
      obtain ⟨u, s3, h1, h⟩ := gives_bind.1 h
      obtain rfl := gives_modify.1 h1
      obtain ⟨pat, s4, hpat, h⟩ := gives_bind.1 h
      obtain ⟨u, s5, -, h⟩ := gives_bind.1 h
      obtain ⟨rfl, -⟩ := gives_pure.1 h
      exact (loop_head hpat).of_core Γ fun _ => .reified
    · next i =>
      by_cases hi : i ∈ ["false", "true", "_"]
      · rcases loop_wildcard Γ hi hhead with hno | ⟨c, hc⟩
        · exact hno.elim
        · cases hc
          exact .literal
      · rcases loop_ident Γ hi hhead with ⟨con', hp, href⟩ | ⟨hno, -⟩
        · cases hp
          exact .reference (.refl _) href
        · exact hno.elim
    · obtain ⟨u, s1, -, h⟩ := gives_bind.1 h
      exact hconst h
    · exact hconst h
    · exact hconst h
    · exact hconst h
    · obtain ⟨v, s1, -, h⟩ := gives_bind.1 h
      cases (gives_pure.1 h).1
    · obtain ⟨con', ps', hp, hcalls, hlen⟩ := loop_call Γ hhead
      cases hp
      exact .call (.refl _) hcalls hlen
    · obtain ⟨con', hp, href⟩ := loop_field Γ hhead
      cases hp
      exact .reference (.refl _) href
    · rcases arrayPattern_spec Γ (fun _ _ _ => not_gives_throw) h with hno | ⟨ps', hp⟩
      · exact hno.elim
      · cases hp
        exact .array
    · obtain ⟨known, ps', hknown, hp, hlen⟩ := loop_object Γ hhead
      cases hp
      exact .object (.refl _) hknown hlen
    · obtain ⟨x1, s1, -, h⟩ := gives_bind.1 h
      obtain ⟨x2, s2, -, h⟩ := gives_bind.1 h
      obtain ⟨u, s3, -, h⟩ := gives_bind.1 h
      cases (gives_pure.1 h).1
    · split at h
      · obtain ⟨v, s1, -, h⟩ := gives_bind.1 h
        obtain ⟨pat, s2, -, h⟩ := gives_bind.1 h
        cases (gives_pure.1 h).1
      · exact absurd h not_gives_throw
    · exact (extractorPattern_noCon Γ h).elim
    · split at h
      · exact (extractorPattern_noCon Γ h).elim
      · exact absurd h not_gives_throw
    · exact (loop_head h).of_core Γ fun _ => .display
    · obtain ⟨e2, s1, h1, h⟩ := gives_bind.1 h
      obtain ⟨hconvert, rfl⟩ := gives_lift.1 h1
      exact (loop_head h).of_core Γ fun _ => .stored hconvert
    · exact absurd h not_gives_throw

end EvilHaxe.Matcher.ExprToPattern
