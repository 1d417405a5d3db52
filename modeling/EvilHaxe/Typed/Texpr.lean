/-
The typed syntax trees of `tType.ml`, on which the passes after typing work. A class, a field or a type is known by its
reference; what a pass reads of the record behind it is that pass's own.
-/
import EvilHaxe.Syntax.Ast

namespace EvilHaxe.Typed

open EvilHaxe.Syntax

/-- The references of a program: classes, their fields, enum constructors, other declared types, and types. -/
structure Decls where
  Cls : Type
  Fld : Type
  EnumFld : Type
  ModuleType : Type
  Typ : Type

inductive Tconstant where
  | tInt (i : Int)
  | tFloat (s : String)
  | tString (s : String)
  | tBool (b : Bool)
  | tNull | tThis | tSuper
deriving DecidableEq

inductive TvarOrigin where
  | tvoLocalVariable | tvoArgument | tvoForVariable | tvoPatternVariable | tvoCatchVariable | tvoLocalFunction
deriving DecidableEq

inductive TvarKind where
  | vUser (origin : TvarOrigin)
  | vGenerated | vInlined | vInlinedConstructorVariable | vExtractorVariable | vAbstractThis
deriving DecidableEq

structure Tvar (D : Decls) where
  vId : Nat
  vName : String
  vType : D.Typ
  vKind : TvarKind

inductive FieldAccess (D : Decls) where
  | fInstance (c : D.Cls) (cf : D.Fld)
  | fStatic (c : D.Cls) (cf : D.Fld)
  | fAnon (cf : D.Fld)
  | fDynamic (s : String)
  | fClosure (c : Option D.Cls) (cf : D.Fld)
  | fEnum (ef : D.EnumFld)

mutual

/-- `texpr_expr`. Positions and the types of expressions are not kept. -/
inductive Texpr (D : Decls) where
  | tConst (c : Tconstant)
  | tLocal (v : Tvar D)
  | tArray (e1 e2 : Texpr D)
  | tBinop (op : Binop) (e1 e2 : Texpr D)
  | tField (e : Texpr D) (fa : FieldAccess D)
  | tTypeExpr (mt : D.ModuleType)
  | tParenthesis (e : Texpr D)
  | tObjectDecl (fl : List (TobjectField D))
  | tArrayDecl (el : List (Texpr D))
  | tCall (e : Texpr D) (el : List (Texpr D))
  | tNew (c : D.Cls) (el : List (Texpr D))
  | tUnop (op : Unop) (flag : UnopFlag) (e : Texpr D)
  | tFunction (args : List (Targ D)) (e : Texpr D)
  | tVar (v : Tvar D) (e : Option (Texpr D))
  | tBlock (el : List (Texpr D))
  | tFor (v : Tvar D) (e1 e2 : Texpr D)
  | tIf (e e1 : Texpr D) (e2 : Option (Texpr D))
  | tWhile (e1 e2 : Texpr D) (flag : WhileFlag)
  | tSwitch (subject : Texpr D) (cases : List (TswitchCase D)) (dflt : Option (Texpr D)) (exhaustive : Bool)
  | tTry (e : Texpr D) (catches : List (Tcatch D))
  | tReturn (e : Option (Texpr D))
  | tBreak
  | tContinue
  | tThrow (e : Texpr D)
  | tCast (e : Texpr D) (mt : Option D.ModuleType)
  | tMeta (m : MetadataEntry) (e : Texpr D)
  | tEnumParameter (e : Texpr D) (ef : D.EnumFld) (i : Nat)
  | tEnumIndex (e : Texpr D)
  | tIdent (s : String)

inductive TobjectField (D : Decls) where
  | mk (name : String) (e : Texpr D)

inductive TswitchCase (D : Decls) where
  | mk (patterns : List (Texpr D)) (e : Texpr D)

/-- An argument and its default. -/
inductive Targ (D : Decls) where
  | mk (v : Tvar D) (dflt : Option (Texpr D))

inductive Tcatch (D : Decls) where
  | mk (v : Tvar D) (e : Texpr D)

end

end EvilHaxe.Typed
