/-
`decode_expr` after `encode_expr`, computed on values, is the recoding of the tree. A decoder is only called again on
parts of its value, so the proof goes by the size of the value: decoders that recode what is smaller recode the whole.
-/
import EvilHaxe.Evil.ExprCodec
import EvilHaxe.Evil.Transport

namespace EvilHaxe.Evil

open EvilHaxe.Syntax

/-! ## Objects and arrays -/

/-- The decoders recode whatever is encoded in at most `n` nodes. -/
structure Recodes (d : Decoders) (n : Nat) : Prop where
  expr : ∀ e, (encodeExpr e).size ≤ n → d.expr (encodeExpr e) = recodeExpr e
  ctype : ∀ t, (encodeCType t).size ≤ n → d.ctype (encodeCType t) = recodeType t
  tparamDecl : ∀ p, (encodeTParamDecl p).size ≤ n → d.tparamDecl (encodeTParamDecl p) = recodeParam p

@[simp] theorem ok_bind {ε α β : Type} (a : α) (f : α → Except ε β) : (Except.ok a >>= f) = f a := rfl

theorem decodeExprLoop_exprObject (d : Decoders) (tag : Nat) (pl : List Value) :
    decodeExprLoop d (exprObject tag pl) = decodeExprDef d tag pl := by
  simp [decodeExprLoop, exprObject, field, List.lookup_cons, decodePos, decodeEnum]

theorem opt_encodeExpr {α : Type} (f : Value → Except Exc α) (e : Expr) :
    opt f (encodeExpr e) = (do pure (some (← f (encodeExpr e)))) := by
  cases e <;> rfl

theorem opt_encodeCType {α : Type} (f : Value → Except Exc α) (t : TypeHint) :
    opt f (encodeCType t) = (do pure (some (← f (encodeCType t)))) := by
  cases t <;> rfl

/-- A list of encodings is decoded as its elements are. -/
theorem mapM_encoded {α : Type} {n : Nat} {enc : α → Value} {dec : Value → Except Exc α} {recode : α → Except Exc α}
    (encs : List α → List Value) (recodes : List α → Except Exc (List α)) (enc_nil : encs [] = []) (enc_cons : ∀ a l,
      encs (a :: l) = enc a :: encs l)
    (rec_nil : recodes [] = pure []) (rec_cons : ∀ a l, recodes (a :: l) = do pure ((← recode a) :: (← recodes l)))
    (h : ∀ a, (enc a).size ≤ n → dec (enc a) = recode a) (l : List α) (hl : Value.sizes (encs l) ≤ n) :
    (encs l).mapM dec = recodes l := by
  induction l with
  | nil => rw [enc_nil, rec_nil, List.mapM_nil]
  | cons a l ih =>
    rw [enc_cons] at hl ⊢
    have hs : (enc a).size + Value.sizes (encs l) ≤ n := hl
    rw [List.mapM_cons, h a (by omega), ih (by omega), rec_cons]

@[simp] theorem mapM_vString (l : List String) : l.mapM (decodeString ∘ Value.vString) = .ok l := by
  induction l with
  | nil => rfl
  | cons s l ih => rw [List.mapM_cons, ih]; rfl

@[simp] theorem decodeAccess_encodeAccess (a : Access) : decodeAccess (encodeAccess a) = .ok a := by
  cases a <;> rfl

@[simp] theorem mapM_encodeAccess (l : List Access) : l.mapM (decodeAccess ∘ encodeAccess) = .ok l := by
  induction l with
  | nil => rfl
  | cons a l ih => rw [List.mapM_cons, ih, Function.comp, decodeAccess_encodeAccess]; rfl

@[simp] theorem decodeDisplayKind_encode (dk : DisplayKind) : decodeDisplayKind (encodeDisplayKind dk) = .ok dk := by
  cases dk <;> rfl

@[simp] theorem decodeEfieldKind_encode (efk : EFieldKind) : decodeEfieldKind (encodeEfieldKind efk) = .ok efk := by
  cases efk <;> rfl

@[simp] theorem decodeQuotes_encode (qs : QuoteStatus) : decodeQuotes (encodeQuotes qs) = .ok qs := by
  cases qs <;> rfl

@[simp] theorem decodeFunctionKind_encode (kind : FunctionKind) :
    decodeFunctionKind (encodeFunctionKind kind) = .ok kind := by
  cases kind <;> rfl

/-! ## The parts of a value -/

section

variable {d : Decoders} {n : Nat} (hd : Recodes d n)
include hd

theorem decode_optExpr (e : Option Expr) (h : (encodeOptExpr e).size ≤ n) :
    opt d.expr (encodeOptExpr e) = recodeOption e := by
  cases e with
  | none => rfl
  | some e =>
    show opt d.expr (encodeExpr e) = _
    rw [opt_encodeExpr, hd.expr e h]
    rfl

theorem decode_optCType (t : Option TypeHint) (h : (encodeOptCType t).size ≤ n) :
    opt d.ctype (encodeOptCType t) = recodeHint t := by
  cases t with
  | none => rfl
  | some t =>
    show opt d.ctype (encodeCType t) = _
    rw [opt_encodeCType, hd.ctype t h]
    rfl

theorem decode_exprs (el : List Expr) (h : Value.sizes (encodeExprs el) ≤ n) :
    (encodeExprs el).mapM d.expr = recodeExprs el :=
  mapM_encoded encodeExprs recodeExprs rfl (fun _ _ => rfl) rfl (fun _ _ => rfl) hd.expr el h

theorem decode_ctypes (tl : List TypeHint) (h : Value.sizes (encodeCTypes tl) ≤ n) :
    (encodeCTypes tl).mapM d.ctype = recodeTypes tl :=
  mapM_encoded encodeCTypes recodeTypes rfl (fun _ _ => rfl) rfl (fun _ _ => rfl) hd.ctype tl h

theorem decode_tparamDecls (pl : List TypeParam) (h : Value.sizes (encodeTParamDecls pl) ≤ n) :
    (encodeTParamDecls pl).mapM d.tparamDecl = recodeParams pl :=
  mapM_encoded encodeTParamDecls recodeParams rfl (fun _ _ => rfl) rfl (fun _ _ => rfl) hd.tparamDecl pl h

theorem decode_tparam (p : TypeParamOrConst) (h : (encodeTParam p).size ≤ n) :
    decodeTParam d (encodeTParam p) = recodeTypeParam p := by
  cases p with
  | tpType t =>
    have ht : (encodeCType t).size ≤ n := by simp only [encodeTParam, Value.size, Value.sizes] at h; omega
    show (do pure (TypeParamOrConst.tpType (← d.ctype (encodeCType t)))) = _
    rw [hd.ctype t ht]
    rfl
  | tpExpr e =>
    have he : (encodeExpr e).size ≤ n := by simp only [encodeTParam, Value.size, Value.sizes] at h; omega
    show (do pure (TypeParamOrConst.tpExpr (← d.expr (encodeExpr e)))) = _
    rw [hd.expr e he]
    rfl

theorem decode_tparams (pl : List TypeParamOrConst) (h : Value.sizes (encodeTParams pl) ≤ n) :
    (encodeTParams pl).mapM (decodeTParam d) = recodeTypeParams pl :=
  mapM_encoded encodeTParams recodeTypeParams rfl (fun _ _ => rfl) rfl (fun _ _ => rfl) (decode_tparam hd) pl h

theorem decode_astPath (p : TypePath) (h : (encodeAstPath p).size ≤ n) :
    decodeAstPath d (encodeAstPath p) = recodePath p := by
  obtain ⟨pack, name, params, sub⟩ := p
  have hp : Value.sizes (encodeTParams params) ≤ n := by
    cases sub <;> simp only [encodeAstPath, Value.size, Value.fieldSizes] at h <;> omega
  have hl := decode_tparams hd params hp
  cases sub with
  | none =>
    simp [encodeAstPath, decodeAstPath, field, List.lookup_cons, decodeArray, decodeOptArray, decodeString, opt, hl]
    rfl
  | some s =>
    simp [encodeAstPath, decodeAstPath, field, List.lookup_cons, decodeArray, decodeOptArray, decodeString, opt, hl]
    rfl

theorem decode_astPaths (pl : List TypePath) (h : Value.sizes (encodeAstPaths pl) ≤ n) :
    (encodeAstPaths pl).mapM (decodeAstPath d) = recodePaths pl :=
  mapM_encoded encodeAstPaths recodePaths rfl (fun _ _ => rfl) rfl (fun _ _ => rfl) (decode_astPath hd) pl h

theorem decode_metaEntry (m : MetadataEntry) (h : (encodeMetaEntry m).size ≤ n) :
    decodeMetaEntry d (encodeMetaEntry m) = recodeMeta m := by
  obtain ⟨name, params⟩ := m
  simp only [encodeMetaEntry, Value.size, Value.fieldSizes] at h
  have hp := decode_exprs hd params (by omega)
  simp [encodeMetaEntry, decodeMetaEntry, field, List.lookup_cons, decodeArray, decodeOptArray, decodeString, decodePos, hp]
  rfl

theorem decode_metas (ml : List MetadataEntry) (h : Value.sizes (encodeMetas ml) ≤ n) :
    decodeMetaContent d (.vArray (encodeMetas ml)) = recodeMetas ml :=
  mapM_encoded encodeMetas recodeMetas rfl (fun _ _ => rfl) rfl (fun _ _ => rfl) (decode_metaEntry hd) ml h

/-- One constraint or none, as `encode_tparam_decl` writes them. -/
theorem decode_constraints (th : Option TypeHint) (h : (encodeConstraints th).size ≤ n) :
    decodeConstraints d (encodeConstraints th) = recodeHint th := by
  cases th with
  | none => rfl
  | some t =>
    simp only [encodeConstraints, Value.size, Value.sizes] at h
    have ht := hd.ctype t (by omega)
    simp [encodeConstraints, decodeConstraints, decodeArray, ht]
    rfl

theorem decode_tparamDecl (p : TypeParam) (h : (encodeTParamDecl p).size ≤ n + 1) :
    decodeTParamDecl d (encodeTParamDecl p) = recodeParam p := by
  obtain ⟨name, params, constraints, dflt, metas⟩ := p
  simp only [encodeTParamDecl, Value.size, Value.fieldSizes] at h
  have hp := decode_tparamDecls hd params (by omega)
  have hc := decode_constraints hd constraints (by omega)
  have hm := decode_metas hd metas (by omega)
  simp [encodeTParamDecl, decodeTParamDecl, decodeTParams, field, List.lookup_cons, decodeArray, decodeOptArray,
    decodeString,
    opt, hp, hc, hm]
  rfl

theorem decode_arg (a : FunArg) (h : (encodeArg a).size ≤ n) : decodeArg d (encodeArg a) = recodeArg a := by
  obtain ⟨name, isOpt, metas, t, value⟩ := a
  simp only [encodeArg, Value.size, Value.fieldSizes] at h
  have hm := decode_metas hd metas (by omega)
  have ht := decode_optCType hd t (by omega)
  have hv := decode_optExpr hd value (by omega)
  simp [encodeArg, decodeArg, field, List.lookup_cons, decodeOptBool, decodeBool, decodeString, hm, ht, hv]
  rfl

theorem decode_args (al : List FunArg) (h : Value.sizes (encodeArgs al) ≤ n) :
    (encodeArgs al).mapM (decodeArg d) = recodeArgs al :=
  mapM_encoded encodeArgs recodeArgs rfl (fun _ _ => rfl) rfl (fun _ _ => rfl) (decode_arg hd) al h

theorem decode_fun (f : Func) (h : (encodeFun f).size ≤ n) : decodeFun d (encodeFun f) = recodeFun f := by
  obtain ⟨params, args, t, e⟩ := f
  simp only [encodeFun, Value.size, Value.fieldSizes] at h
  have hp := decode_tparamDecls hd params (by omega)
  have ha := decode_args hd args (by omega)
  have ht := decode_optCType hd t (by omega)
  have he := decode_optExpr hd e (by omega)
  simp [encodeFun, decodeFun, decodeTParams, field, List.lookup_cons, decodeArray, decodeOptArray, hp, ha, ht, he]
  rfl

theorem decode_fieldKind (kind : ClassFieldKind) (h : (encodeFieldKind kind).size ≤ n) :
    decodeClassFieldKind d (encodeFieldKind kind) = recodeKind kind := by
  cases kind with
  | fVar t e =>
    simp only [encodeFieldKind, Value.size, Value.sizes] at h
    have ht := decode_optCType hd t (by omega)
    have he := decode_optExpr hd e (by omega)
    simp [encodeFieldKind, decodeClassFieldKind, decodeEnum, ht, he]
    rfl
  | fFun f =>
    simp only [encodeFieldKind, Value.size, Value.sizes] at h
    have hf := decode_fun hd f (by omega)
    simp [encodeFieldKind, decodeClassFieldKind, decodeEnum, hf]
    rfl
  | fProp get set t e =>
    simp only [encodeFieldKind, Value.size, Value.sizes] at h
    have ht := decode_optCType hd t (by omega)
    have he := decode_optExpr hd e (by omega)
    simp [encodeFieldKind, decodeClassFieldKind, decodeEnum, decodeString, ht, he]
    rfl

theorem decode_field (f : ClassField) (h : (encodeField f).size ≤ n) :
    decodeField d (encodeField f) = recodeField f := by
  obtain ⟨name, metas, access, kind⟩ := f
  simp only [encodeField, Value.size, Value.fieldSizes] at h
  have hk := decode_fieldKind hd kind (by omega)
  have hm := decode_metas hd metas (by omega)
  simp [encodeField, decodeField, field, List.lookup_cons, decodePos, decodeString, decodeArray, decodeOptArray, hk, hm]
  rfl

theorem decode_fields (fl : List ClassField) (h : Value.sizes (encodeFields fl) ≤ n) :
    (encodeFields fl).mapM (decodeField d) = recodeFields fl :=
  mapM_encoded encodeFields recodeFields rfl (fun _ _ => rfl) rfl (fun _ _ => rfl) (decode_field hd) fl h

theorem decode_ctype (t : TypeHint) (h : (encodeCType t).size ≤ n + 1) :
    decodeCType d (encodeCType t) = recodeType t := by
  cases t with
  | ctPath p =>
    simp only [encodeCType, Value.size, Value.sizes] at h
    have hp := decode_astPath hd p (by omega)
    simp [encodeCType, decodeCType, decodeEnum, hp]
    rfl
  | ctFunction args ret =>
    simp only [encodeCType, Value.size, Value.sizes] at h
    have ha := decode_ctypes hd args (by omega)
    have hr := hd.ctype ret (by omega)
    simp [encodeCType, decodeCType, decodeEnum, decodeArray, ha, hr]
    rfl
  | ctAnonymous fields =>
    simp only [encodeCType, Value.size, Value.sizes] at h
    have hf := decode_fields hd fields (by omega)
    simp [encodeCType, decodeCType, decodeEnum, decodeArray, hf]
    rfl
  | ctParent t =>
    simp only [encodeCType, Value.size, Value.sizes] at h
    have ht := hd.ctype t (by omega)
    simp [encodeCType, decodeCType, decodeEnum, ht]
    rfl
  | ctExtend tl fields =>
    simp only [encodeCType, Value.size, Value.sizes] at h
    have ht := decode_astPaths hd tl (by omega)
    have hf := decode_fields hd fields (by omega)
    simp [encodeCType, decodeCType, decodeEnum, decodeArray, ht, hf]
    rfl
  | ctOptional t =>
    simp only [encodeCType, Value.size, Value.sizes] at h
    have ht := hd.ctype t (by omega)
    simp [encodeCType, decodeCType, decodeEnum, ht]
    rfl
  | ctNamed name t =>
    simp only [encodeCType, Value.size, Value.sizes] at h
    have ht := hd.ctype t (by omega)
    simp [encodeCType, decodeCType, decodeEnum, decodeString, ht]
    rfl
  | ctIntersection tl =>
    simp only [encodeCType, Value.size, Value.sizes] at h
    have ht := decode_ctypes hd tl (by omega)
    simp [encodeCType, decodeCType, decodeEnum, decodeArray, ht]
    rfl

theorem decode_objectField (f : ObjectField) (h : (encodeObjectField f).size ≤ n) :
    decodeObjectField d (encodeObjectField f) = recodeObjectField f := by
  obtain ⟨name, quotes, e⟩ := f
  simp only [encodeObjectField, Value.size, Value.fieldSizes] at h
  have he := hd.expr e (by omega)
  simp [encodeObjectField, decodeObjectField, field, List.lookup_cons, decodeString, he]
  rfl

theorem decode_objectFields (fl : List ObjectField) (h : Value.sizes (encodeObjectFields fl) ≤ n) :
    (encodeObjectFields fl).mapM (decodeObjectField d) = recodeObjectFields fl :=
  mapM_encoded encodeObjectFields recodeObjectFields rfl (fun _ _ => rfl) rfl (fun _ _ => rfl) (decode_objectField hd)
    fl h

theorem decode_var (v : EVar) (h : (encodeVar v).size ≤ n) : decodeVar d (encodeVar v) = recodeVar v := by
  obtain ⟨name, final, static, t, e, metas⟩ := v
  simp only [encodeVar, Value.size, Value.fieldSizes] at h
  have ht := decode_optCType hd t (by omega)
  have he := decode_optExpr hd e (by omega)
  have hm := decode_metas hd metas (by omega)
  simp [encodeVar, decodeVar, field, List.lookup_cons, decodeOptBool, decodeBool, decodeString, ht, he, hm]
  rfl

theorem decode_vars (vl : List EVar) (h : Value.sizes (encodeVars vl) ≤ n) :
    (encodeVars vl).mapM (decodeVar d) = recodeVars vl :=
  mapM_encoded encodeVars recodeVars rfl (fun _ _ => rfl) rfl (fun _ _ => rfl) (decode_var hd) vl h

theorem decode_case (c : SwitchCase) (h : (encodeCase c).size ≤ n) : decodeCase d (encodeCase c) = recodeCase c := by
  obtain ⟨values, guard, e⟩ := c
  simp only [encodeCase, Value.size, Value.fieldSizes] at h
  have hv := decode_exprs hd values (by omega)
  have hg := decode_optExpr hd guard (by omega)
  have he := decode_optExpr hd e (by omega)
  simp [encodeCase, decodeCase, field, List.lookup_cons, decodeArray, hv, hg, he]
  rfl

theorem decode_cases (cl : List SwitchCase) (h : Value.sizes (encodeCases cl) ≤ n) :
    (encodeCases cl).mapM (decodeCase d) = recodeCases cl :=
  mapM_encoded encodeCases recodeCases rfl (fun _ _ => rfl) rfl (fun _ _ => rfl) (decode_case hd) cl h

/-- The object without an expression is no encoding, so an empty default is told from every other one. -/
theorem decode_default (dflt : Option (Option Expr)) (h : (encodeDefault dflt).size ≤ n) :
    decodeDefault d (encodeDefault dflt) = recodeDefault dflt := by
  match dflt with
  | none => rfl
  | some none => rfl
  | some (some e) =>
    have hx : decodeDefault d (encodeExpr e) = (do pure (some (some (← d.expr (encodeExpr e))))) := by
      cases e <;> rfl
    show decodeDefault d (encodeExpr e) = _
    rw [hx, hd.expr e h]
    show _ = (do pure (some (← (do pure (some (← recodeExpr e))))))
    simp

theorem decode_catch (c : Catch) (h : (encodeCatch c).size ≤ n) : decodeCatch d (encodeCatch c) = recodeCatch c := by
  obtain ⟨name, t, e⟩ := c
  simp only [encodeCatch, Value.size, Value.fieldSizes] at h
  have ht := decode_optCType hd t (by omega)
  have he := hd.expr e (by omega)
  simp [encodeCatch, decodeCatch, field, List.lookup_cons, decodeString, ht, he]
  rfl

theorem decode_catches (cl : List Catch) (h : Value.sizes (encodeCatches cl) ≤ n) :
    (encodeCatches cl).mapM (decodeCatch d) = recodeCatches cl :=
  mapM_encoded encodeCatches recodeCatches rfl (fun _ _ => rfl) rfl (fun _ _ => rfl) (decode_catch hd) cl h

/-- One case for each constructor; the tag of the encoding selects the branch of the decoder. -/
theorem decode_expr (e : Expr) (h : (encodeExpr e).size ≤ n + 1) : decodeExprLoop d (encodeExpr e) = recodeExpr e := by
  cases e with
  | eConst c => rfl
  | eArray e1 e2 =>
    simp only [encodeExpr, exprObject, Value.size, Value.fieldSizes, Value.sizes] at h
    have h1 := hd.expr e1 (by omega)
    have h2 := hd.expr e2 (by omega)
    simp [encodeExpr, decodeExprLoop_exprObject, decodeExprDef, h1, h2]
    rfl
  | eBinop op e1 e2 =>
    simp only [encodeExpr, exprObject, Value.size, Value.fieldSizes, Value.sizes] at h
    have h1 := hd.expr e1 (by omega)
    have h2 := hd.expr e2 (by omega)
    simp [encodeExpr, decodeExprLoop_exprObject, decodeExprDef, h1, h2]
    rfl
  | eField e f efk =>
    simp only [encodeExpr, exprObject, Value.size, Value.fieldSizes, Value.sizes] at h
    have he := hd.expr e (by omega)
    simp [encodeExpr, decodeExprLoop_exprObject, decodeExprDef, decodeString, he]
    rfl
  | eParenthesis e =>
    simp only [encodeExpr, exprObject, Value.size, Value.fieldSizes, Value.sizes] at h
    have he := hd.expr e (by omega)
    simp [encodeExpr, decodeExprLoop_exprObject, decodeExprDef, he]
    rfl
  | eObjectDecl fl =>
    simp only [encodeExpr, exprObject, Value.size, Value.fieldSizes, Value.sizes] at h
    have hf := decode_objectFields hd fl (by omega)
    simp [encodeExpr, decodeExprLoop_exprObject, decodeExprDef, decodeArray, hf]
    rfl
  | eArrayDecl el =>
    simp only [encodeExpr, exprObject, Value.size, Value.fieldSizes, Value.sizes] at h
    have hl := decode_exprs hd el (by omega)
    simp [encodeExpr, decodeExprLoop_exprObject, decodeExprDef, decodeArray, hl]
    rfl
  | eCall e el =>
    simp only [encodeExpr, exprObject, Value.size, Value.fieldSizes, Value.sizes] at h
    have he := hd.expr e (by omega)
    have hl := decode_exprs hd el (by omega)
    simp [encodeExpr, decodeExprLoop_exprObject, decodeExprDef, decodeArray, he, hl]
    rfl
  | eNew t el =>
    simp only [encodeExpr, exprObject, Value.size, Value.fieldSizes, Value.sizes] at h
    have ht := decode_astPath hd t (by omega)
    have hl := decode_exprs hd el (by omega)
    simp [encodeExpr, decodeExprLoop_exprObject, decodeExprDef, decodeArray, ht, hl]
    rfl
  | eUnop op flag e =>
    simp only [encodeExpr, exprObject, Value.size, Value.fieldSizes, Value.sizes] at h
    have he := hd.expr e (by omega)
    cases flag <;> simp [encodeExpr, decodeExprLoop_exprObject, decodeExprDef, decodeBool, he] <;> rfl
  | eVars vl =>
    simp only [encodeExpr, exprObject, Value.size, Value.fieldSizes, Value.sizes] at h
    have hv := decode_vars hd vl (by omega)
    simp [encodeExpr, decodeExprLoop_exprObject, decodeExprDef, decodeArray, hv]
    rfl
  | eFunction kind f =>
    simp only [encodeExpr, exprObject, Value.size, Value.fieldSizes, Value.sizes] at h
    have hf := decode_fun hd f (by omega)
    simp [encodeExpr, decodeExprLoop_exprObject, decodeExprDef, hf]
    rfl
  | eBlock el =>
    simp only [encodeExpr, exprObject, Value.size, Value.fieldSizes, Value.sizes] at h
    have hl := decode_exprs hd el (by omega)
    simp [encodeExpr, decodeExprLoop_exprObject, decodeExprDef, decodeArray, hl]
    rfl
  | eFor it e =>
    simp only [encodeExpr, exprObject, Value.size, Value.fieldSizes, Value.sizes] at h
    have hi := hd.expr it (by omega)
    have he := hd.expr e (by omega)
    simp [encodeExpr, decodeExprLoop_exprObject, decodeExprDef, hi, he]
    rfl
  | eIf cond e1 e2 =>
    simp only [encodeExpr, exprObject, Value.size, Value.fieldSizes, Value.sizes] at h
    have hc := hd.expr cond (by omega)
    have h1 := hd.expr e1 (by omega)
    have h2 := decode_optExpr hd e2 (by omega)
    simp [encodeExpr, decodeExprLoop_exprObject, decodeExprDef, hc, h1, h2]
    rfl
  | eWhile cond e flag =>
    simp only [encodeExpr, exprObject, Value.size, Value.fieldSizes, Value.sizes] at h
    have hc := hd.expr cond (by omega)
    have he := hd.expr e (by omega)
    cases flag <;> simp [encodeExpr, decodeExprLoop_exprObject, decodeExprDef, decodeBool, hc, he] <;> rfl
  | eSwitch e cases dflt =>
    simp only [encodeExpr, exprObject, Value.size, Value.fieldSizes, Value.sizes] at h
    have he := hd.expr e (by omega)
    have hc := decode_cases hd cases (by omega)
    have hf := decode_default hd dflt (by omega)
    simp [encodeExpr, decodeExprLoop_exprObject, decodeExprDef, decodeArray, he, hc, hf]
    rfl
  | eTry e catches =>
    simp only [encodeExpr, exprObject, Value.size, Value.fieldSizes, Value.sizes] at h
    have he := hd.expr e (by omega)
    have hc := decode_catches hd catches (by omega)
    simp [encodeExpr, decodeExprLoop_exprObject, decodeExprDef, decodeArray, he, hc]
    rfl
  | eReturn e =>
    simp only [encodeExpr, exprObject, Value.size, Value.fieldSizes, Value.sizes] at h
    have he := decode_optExpr hd e (by omega)
    simp [encodeExpr, decodeExprLoop_exprObject, decodeExprDef, he]
    rfl
  | eBreak => rfl
  | eContinue => rfl
  | eUntyped e =>
    simp only [encodeExpr, exprObject, Value.size, Value.fieldSizes, Value.sizes] at h
    have he := hd.expr e (by omega)
    simp [encodeExpr, decodeExprLoop_exprObject, decodeExprDef, he]
    rfl
  | eThrow e =>
    simp only [encodeExpr, exprObject, Value.size, Value.fieldSizes, Value.sizes] at h
    have he := hd.expr e (by omega)
    simp [encodeExpr, decodeExprLoop_exprObject, decodeExprDef, he]
    rfl
  | eCast e t =>
    simp only [encodeExpr, exprObject, Value.size, Value.fieldSizes, Value.sizes] at h
    have he := hd.expr e (by omega)
    have ht := decode_optCType hd t (by omega)
    simp [encodeExpr, decodeExprLoop_exprObject, decodeExprDef, he, ht]
    rfl
  | eIs e t =>
    simp only [encodeExpr, exprObject, Value.size, Value.fieldSizes, Value.sizes] at h
    have he := hd.expr e (by omega)
    have ht := hd.ctype t (by omega)
    simp [encodeExpr, decodeExprLoop_exprObject, decodeExprDef, he, ht]
    rfl
  | eDisplay e dk =>
    simp only [encodeExpr, exprObject, Value.size, Value.fieldSizes, Value.sizes] at h
    have he := hd.expr e (by omega)
    simp [encodeExpr, decodeExprLoop_exprObject, decodeExprDef, he]
    rfl
  | eTernary cond e1 e2 =>
    simp only [encodeExpr, exprObject, Value.size, Value.fieldSizes, Value.sizes] at h
    have hc := hd.expr cond (by omega)
    have h1 := hd.expr e1 (by omega)
    have h2 := hd.expr e2 (by omega)
    simp [encodeExpr, decodeExprLoop_exprObject, decodeExprDef, hc, h1, h2]
    rfl
  | eCheckType e t =>
    simp only [encodeExpr, exprObject, Value.size, Value.fieldSizes, Value.sizes] at h
    have he := hd.expr e (by omega)
    have ht := hd.ctype t (by omega)
    simp [encodeExpr, decodeExprLoop_exprObject, decodeExprDef, he, ht]
    rfl
  | eMeta m e =>
    simp only [encodeExpr, exprObject, Value.size, Value.fieldSizes, Value.sizes] at h
    have hm := decode_metaEntry hd m (by omega)
    have he := hd.expr e (by omega)
    simp [encodeExpr, decodeExprLoop_exprObject, decodeExprDef, hm, he]
    rfl

end

/-! ## The whole value -/

/-- By induction on the depth of the stack. -/
theorem recodes_decoders (n : Nat) : Recodes (decoders n) n := by
  induction n with
  | zero =>
    constructor
    · intro e h
      cases e <;> simp [encodeExpr, exprObject, Value.size] at h
    · intro t h
      cases t <;> simp [encodeCType, Value.size] at h
    · rintro ⟨name, params, constraints, dflt, metas⟩ h
      simp [encodeTParamDecl, Value.size] at h
  | succ n ih => exact ⟨decode_expr ih, decode_ctype ih, decode_tparamDecl ih⟩

theorem decodeExpr_encodeExpr (e : Expr) : decodeExpr (encodeExpr e) = recodeExpr e :=
  (recodes_decoders _).expr e le_rfl

end EvilHaxe.Evil
