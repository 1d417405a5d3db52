/-
`purityState.ml`: what the metadata of a field and of its class say of its purity; and what purity inference reads of
classes and fields.
-/
import EvilHaxe.Typed.Texpr

namespace EvilHaxe.Purity

open EvilHaxe.Syntax EvilHaxe.Typed

/-- `PurityState.t`. The position that `ExpectPure` has is only printed. -/
inductive PurityState where
  | pure | impure | maybePure | inferredPure | expectPure
deriving DecidableEq

/-- What ends an inference: a wrong argument of `@:pure`, the exception `Purity_conflict`, and the fuel of `taint`. -/
inductive Error (D : Decls) where
  | unsupportedPurityValue (s : Option String)
  | purityConflict (c : D.Cls) (cf : D.Fld)
  | outOfFuel

def isPureMeta : MetadataEntry → Bool
  | .mk name _ => name == ":pure"

/-- The value of one `@:pure`. -/
def purityOfArgs {D : Decls} : List Expr → Except (Error D) PurityState
  | [.eConst (.ident s)] =>
    if s = "true" ∨ s = "inferredPure" then .ok .pure
    else if s = "false" then .ok .impure
    else if s = "expect" then .ok .expectPure
    else .error (.unsupportedPurityValue (some s))
  | [] => .ok .pure
  | _ => .error (.unsupportedPurityValue none)

def getPurityFromMeta {D : Decls} (metas : List MetadataEntry) : Except (Error D) PurityState :=
  match metas.find? isPureMeta with
  | some (.mk _ args) => purityOfArgs args
  | none => .ok .maybePure

/-! ## Classes and fields -/

inductive MethodKind where
  | methNormal | methInline | methDynamic | methMacro
deriving DecidableEq

inductive FieldKind where
  | var
  | method (k : MethodKind)
deriving DecidableEq

structure TclassField (D : Decls) where
  cfName : String
  cfMeta : List MetadataEntry
  cfKind : FieldKind
  /-- The flag `CfFinal`. -/
  cfFinal : Bool
  /-- The flag `CfExtern`. -/
  cfExtern : Bool
  cfExpr : Option (Texpr D)

structure Tclass (D : Decls) where
  clPath : List String × String
  clMeta : List MetadataEntry
  clSuper : Option D.Cls
  clFields : List D.Fld
  clOrderedFields : List D.Fld
  clOrderedStatics : List D.Fld
  clConstructor : Option D.Fld

/-- The records behind the references. No class extends itself, over any number of steps. -/
structure Program (D : Decls) where
  cls : D.Cls → Tclass D
  fld : D.Fld → TclassField D
  superDepth : D.Cls → Nat
  superDepth_lt : ∀ c d, (cls c).clSuper = some d → superDepth d < superDepth c
  hasReferenceSemantics : D.Typ → Bool

variable {D : Decls} (p : Program D)

namespace Program

def getPurity (c : D.Cls) (cf : D.Fld) : Except (Error D) PurityState := do
  match ← getPurityFromMeta (p.fld cf).cfMeta with
  | .pure | .inferredPure => .ok .pure
  | .impure => .ok .impure
  | .expectPure => .ok .expectPure
  | .maybePure => getPurityFromMeta (p.cls c).clMeta

def isPure (c : D.Cls) (cf : D.Fld) : Except (Error D) Bool := do
  return (← p.getPurity c cf) = .pure

end Program

end EvilHaxe.Purity

/-! The module `Purity` of `analyzerTexpr.ml`: it takes every field to be pure at first, looks at the bodies one field after
the other, and takes that back for a field, and for those that were found to use it, where a body is not. -/

namespace EvilHaxe.Purity

open EvilHaxe.Syntax EvilHaxe.Typed

variable {D : Decls}

/-! ## The nodes -/

structure PurityNode (D : Decls) where
  pnClass : D.Cls
  pnField : D.Fld
  pnPurity : PurityState
  /-- The keys of the nodes: a node is never replaced. -/
  pnDependents : List String

/-- `node_lut` -/
abbrev NodeLut (D : Decls) := List (String × PurityNode D)

namespace NodeLut

def find (lut : NodeLut D) (id : String) : Option (PurityNode D) := lut.lookup id

def modify (lut : NodeLut D) (id : String) (f : PurityNode D → PurityNode D) : NodeLut D :=
  lut.map fun (id', node) => (id', if id' = id then f node else node)

/-- The nodes that `Hashtbl.iter` goes over. -/
def nodes (lut : NodeLut D) : List (PurityNode D) := lut.filterMap fun (id, _) => lut.find id

end NodeLut

/-- `List.iter` -/
def iter {α : Type} (f : NodeLut D → α → Except (Error D) (NodeLut D)) : NodeLut D → List α → Except (Error D) (NodeLut D)
  | lut, [] => .ok lut
  | lut, a :: rest => do iter f (← f lut a) rest

/-- `s_type_path` -/
def sTypePath : List String × String → String
  | ([], name) => name
  | (pack, name) => ".".intercalate pack ++ "." ++ name

namespace Program

variable (p : Program D)

def getFieldId (c : D.Cls) (cf : D.Fld) : String := sTypePath (p.cls c).clPath ++ "." ++ (p.fld cf).cfName

def getNode (lut : NodeLut D) (c : D.Cls) (cf : D.Fld) : Except (Error D) (NodeLut D × PurityNode D) :=
  match lut.find (p.getFieldId c cf) with
  | some node => .ok (lut, node)
  | none => do
    let node := { pnClass := c, pnField := cf, pnPurity := ← p.getPurity c cf, pnDependents := [] }
    .ok ((p.getFieldId c cf, node) :: lut, node)

/-! ## Taint -/

/-- The `loop` of `taint`, up the chain of super classes. -/
def taintSupers (taint : NodeLut D → String → Except (Error D) (NodeLut D)) (name : String) :
    Nat → NodeLut D → D.Cls → Except (Error D) (NodeLut D)
  | 0, lut, _ => .ok lut
  | n + 1, lut, c =>
    match (p.cls c).clSuper with
    | none => .ok lut
    | some c =>
      match (p.cls c).clFields.find? fun cf => (p.fld cf).cfName = name with
      | some cf => do
        let (lut, _) ← p.getNode lut c cf
        taintSupers taint name n (← taint lut (p.getFieldId c cf)) c
      | none => taintSupers taint name n lut c

def taint : Nat → NodeLut D → String → Except (Error D) (NodeLut D)
  | 0, _, _ => .error .outOfFuel
  | fuel + 1, lut, id =>
    match lut.find id with
    | none => .ok lut
    | some node =>
      match node.pnPurity with
      | .impure => .ok lut
      | .expectPure => .error (.purityConflict node.pnClass node.pnField)
      | .maybePure | .pure | .inferredPure => do
        let lut := lut.modify id fun node => { node with pnPurity := .impure }
        let lut ← iter (taint fuel) lut node.pnDependents
        p.taintSupers (taint fuel) (p.fld node.pnField).cfName (p.superDepth node.pnClass) lut node.pnClass

end Program

/-! ## The body of a field -/

/-- The end of a piece of work on a body; `exit` is the exception `Exit`. -/
inductive Run (D : Decls) where
  | next (lut : NodeLut D)
  | exit (lut : NodeLut D)
  | raise (e : Error D)

namespace Run

/-- `with Exit -> ()` -/
def caught : Run D → Except (Error D) (NodeLut D)
  | next lut | exit lut => .ok lut
  | raise e => .error e

def bind (r : Run D) (f : NodeLut D → Run D) : Run D :=
  match r with
  | next lut => f lut
  | exit lut => exit lut
  | raise e => raise e

end Run

/-- What `apply_to_field` has at hand. -/
structure Current (D : Decls) where
  fuel : Nat
  isCtor : Bool
  c : D.Cls
  id : String

/-- A field in the order of work, with the arguments `is_ctor` and `is_static` it gets. -/
structure Entry (D : Decls) where
  isCtor : Bool
  isStatic : Bool
  c : D.Cls
  cf : D.Fld

/-- A character of `[A-Za-z0-9_]`. -/
def isWordChar (c : Char) : Bool := c.isAlphanum || c == '_'

/-- The regular expression `r`; its `$` also stands before a line break. -/
def isWord (s : String) : Bool :=
  let line := s.toList.takeWhile (· ≠ '\n')
  line ≠ [] && line.all isWordChar

def isUnboundCallThatMightHaveSideEffects (s : String) : List (Texpr D) → Bool
  | [.tConst (.tString code)] => !(s = "__js__" && isWord code)
  | _ => true

namespace Program

variable (p : Program D) (cur : Current D)

def taintRaise (lut : NodeLut D) : Run D :=
  match p.taint cur.fuel lut cur.id with
  | .ok lut => .exit lut
  | .error e => .raise e

def checkField (lut : NodeLut D) (c : D.Cls) (cf : D.Fld) : Run D :=
  match p.getNode lut c cf with
  | .error e => .raise e
  | .ok (lut, node) =>
    match node.pnPurity with
    | .pure | .inferredPure | .expectPure => .next lut
    | .impure => p.taintRaise cur lut
    | .maybePure =>
      .next (lut.modify (p.getFieldId c cf) fun node => { node with pnDependents := cur.id :: node.pnDependents })

def checkWrite (lut : NodeLut D) : Texpr D → Run D
  | .tLocal v => if p.hasReferenceSemantics v.vType then p.taintRaise cur lut else .next lut
  | .tField (.tConst .tThis) _ => if cur.isCtor then .next lut else p.taintRaise cur lut
  | _ => p.taintRaise cur lut

mutual

def loop (lut : NodeLut D) : Texpr D → Run D
  | .tMeta m e =>
    if isPureMeta m then
      match getPurityFromMeta [m] with
      | .ok .impure => p.taintRaise cur lut
      | .ok _ => .next lut
      | .error e => .raise e
    else loop lut e
  | .tThrow _ => p.taintRaise cur lut
  | .tBinop op e1 e2 =>
    match op with
    | .opAssign | .opAssignOp _ => (p.checkWrite cur lut e1).bind fun lut => loop lut e2
    | _ => (loop lut e1).bind fun lut => loop lut e2
  | .tUnop op _ e1 =>
    match op with
    | .increment | .decrement => p.checkWrite cur lut e1
    | _ => loop lut e1
  | .tCall (.tField _ (.fStatic c cf)) el => (loops lut el).bind fun lut => p.checkField cur lut c cf
  | .tNew c el => (loops lut el).bind fun lut =>
    match (p.cls c).clConstructor with
    | some cf => p.checkField cur lut c cf
    | none => p.taintRaise cur lut
  | .tCall (.tConst .tSuper) el =>
    match (p.cls cur.c).clSuper with
    | some c =>
      match (p.cls c).clConstructor with
      | some cf => (p.checkField cur lut c cf).bind fun lut => loops lut el
      | none => p.taintRaise cur lut
    | none => p.taintRaise cur lut
  | .tCall (.tIdent s) el =>
    if isUnboundCallThatMightHaveSideEffects s el then p.taintRaise cur lut else loops lut el
  | .tCall _ _ => p.taintRaise cur lut
  -- `Type.iter`
  | .tConst _ | .tLocal _ | .tBreak | .tContinue | .tTypeExpr _ | .tIdent _ => .next lut
  | .tArray e1 e2 | .tFor _ e1 e2 | .tWhile e1 e2 _ => (loop lut e1).bind fun lut => loop lut e2
  | .tField e _ | .tEnumParameter e _ _ | .tEnumIndex e | .tParenthesis e | .tCast e _ => loop lut e
  | .tArrayDecl el | .tBlock el => loops lut el
  | .tObjectDecl fl => loopFields lut fl
  | .tVar _ eo | .tReturn eo => loopOption lut eo
  | .tFunction _ e => loop lut e
  | .tIf e e1 e2 => (loop lut e).bind fun lut => (loop lut e1).bind fun lut => loopOption lut e2
  | .tSwitch subject cases dflt _ =>
    (loop lut subject).bind fun lut => (loopCases lut cases).bind fun lut => loopOption lut dflt
  | .tTry e catches => (loop lut e).bind fun lut => loopCatches lut catches

def loops (lut : NodeLut D) : List (Texpr D) → Run D
  | [] => .next lut
  | e :: el => (loop lut e).bind fun lut => loops lut el

def loopOption (lut : NodeLut D) : Option (Texpr D) → Run D
  | none => .next lut
  | some e => loop lut e

def loopFields (lut : NodeLut D) : List (TobjectField D) → Run D
  | [] => .next lut
  | .mk _ e :: fl => (loop lut e).bind fun lut => loopFields lut fl

def loopCases (lut : NodeLut D) : List (TswitchCase D) → Run D
  | [] => .next lut
  | .mk patterns e :: cases =>
    (loops lut patterns).bind fun lut => (loop lut e).bind fun lut => loopCases lut cases

def loopCatches (lut : NodeLut D) : List (Tcatch D) → Run D
  | [] => .next lut
  | .mk _ e :: catches => (loop lut e).bind fun lut => loopCatches lut catches

end

/-- The metadata `@:functionCode` and `@:hlNative`, under which the body is not what runs. -/
def hasForeignCode (c : D.Cls) (cf : D.Fld) : Bool :=
  (p.fld cf).cfExtern || (p.fld cf).cfMeta.any (fun | .mk name _ => name == ":functionCode") ||
    (p.fld cf).cfMeta.any (fun | .mk name _ => name == ":hlNative") ||
    (p.cls c).clMeta.any (fun | .mk name _ => name == ":hlNative")

/-- `apply_to_field`, for a field that is not to be tainted for its kind. -/
def applyToExpr (fuel : Nat) (lut : NodeLut D) (node : PurityNode D) (isCtor : Bool) (c : D.Cls) (cf : D.Fld) :
    Except (Error D) (NodeLut D) := do
  let id := p.getFieldId c cf
  match (p.fld cf).cfExpr with
  | none => if ← p.isPure c cf then .ok lut else p.taint fuel lut id
  | some e =>
    if p.hasForeignCode c cf then
      if ← p.isPure c cf then .ok lut else p.taint fuel lut id
    else
      let cur : Current D := { fuel := fuel, isCtor := isCtor, c := c, id := id }
      let run := match node.pnPurity with
        | .impure => p.taintRaise cur lut
        | .pure => .exit lut
        | _ => p.loop cur lut e
      run.caught

def applyToField (fuel : Nat) (lut : NodeLut D) (entry : Entry D) : Except (Error D) (NodeLut D) := do
  let ⟨isCtor, isStatic, c, cf⟩ := entry
  let (lut, node) ← p.getNode lut c cf
  match (p.fld cf).cfKind with
  | .method .methDynamic | .var => p.taint fuel lut (p.getFieldId c cf)
  | kind =>
    if kind = .method .methNormal ∧ ¬ (isStatic ∨ isCtor ∨ (p.fld cf).cfFinal) then p.taint fuel lut (p.getFieldId c cf)
    else p.applyToExpr fuel lut node isCtor c cf

/-! ## All classes -/

/-- `apply_to_class` -/
def entriesOfClass (c : D.Cls) : List (Entry D) :=
  (p.cls c).clOrderedFields.map (fun cf => ⟨false, false, c, cf⟩) ++
    (p.cls c).clOrderedStatics.map (fun cf => ⟨false, true, c, cf⟩) ++
    (p.cls c).clConstructor.toList.map (fun cf => ⟨true, false, c, cf⟩)

def entries (types : List D.Cls) : List (Entry D) := types.flatMap p.entriesOfClass

/-- The inference with the fields taken in an order of choice. A field is tainted once. -/
def inferEntries (l : List (Entry D)) : Except (Error D) (NodeLut D) := iter (p.applyToField (l.length + 1)) [] l

/-- The first half of `infer`. -/
def infer (types : List D.Cls) : Except (Error D) (NodeLut D) := p.inferEntries (p.entries types)

section Marks

variable [DecidableEq D.Fld]

/-- The second half: `@:pure(inferredPure)` for the fields that are left. -/
def inferredMeta (lut : NodeLut D) (cf : D.Fld) : List MetadataEntry :=
  let left := lut.nodes.any fun node =>
    node.pnField = cf && (node.pnPurity = .pure || node.pnPurity = .maybePure) && !(p.fld cf).cfMeta.any isPureMeta
  if left then .mk ":pure" [.eConst (.ident "inferredPure")] :: (p.fld cf).cfMeta else (p.fld cf).cfMeta

/-- The program with the metadata that `infer` leaves. -/
def marked (lut : NodeLut D) : Program D :=
  { p with fld := fun cf => { p.fld cf with cfMeta := p.inferredMeta lut cf } }

end Marks

end Program

end EvilHaxe.Purity
