/-
`haxe.Unserializer` (the branch of `s` is the one for targets other than neko and php). Its functions and loops are
programs that call each other by name, and what they use of the target is a library of calls that return or throw. A text
is the list of its character codes; outside of it there is no character. Integers wrap as on the target.
-/
import EvilHaxe.Lib.Program

namespace EvilHaxe.Serial

open Lib

abbrev Str := List Nat

variable {V C E σ : Type}

/-! ## The target -/

/-- What is thrown. A library call throws a value. -/
inductive Error (V : Type) where
  | invalidObject
  | invalidObjectKey
  | invalidEnumFormat
  | invalidStringLength
  | invalidReference
  | invalidStringReference
  | classNotFound (name : V)
  | enumNotFound (name : V)
  | unknownEnumIndex (name : V) (index : Int)
  | invalidIntMapFormat
  | invalidBytesLength
  | invalidCustomData
  | invalidChar (c : Option Nat) (pos : Int)
  | thrown (v : V)

/-- Calls of the standard library, of the resolver, and of other code by a custom class. `setNull a n` is
`a[a.length + n - 1] = null`, `asString` the test for a string, and `enumConstruct` an entry of
`Type.getEnumConstructs`. -/
inductive LibOp (V C E : Type) where
  | substr (text : Str) (pos len : Int)
  | urlDecode (s : Str)
  | parseFloat (s : Str)
  | newArray
  | push (a v : V)
  | setNull (a : V) (n : Int)
  | newObject
  | asString (v : V)
  | setField (o : V) (k : Str) (v : V)
  | resolveClass (name : V)
  | resolveEnum (name : V)
  | createEmptyInstance (cl : C)
  | enumConstruct (edecl : E) (index : Int)
  | createEnum (edecl : E) (tag : V) (args : Option V)
  | newList
  | add (l v : V)
  | newStringMap
  | newIntMap
  | newObjectMap
  | set (h key v : V)
  | setInt (h : V) (key : Int) (v : V)
  | dateFromString (s : Str)
  | dateFromTime (t : V)
  | alloc (size : Int)
  | setByte (bytes : V) (pos : Int) (v : Nat)
  | user (request : V)

@[reducible] def LibOp.Res : LibOp V C E → Type
  | .substr .. | .urlDecode _ => Str
  | .push .. | .setNull .. | .setField .. | .add .. | .set .. | .setInt .. | .setByte .. => Unit
  | .asString _ => Option Str
  | .resolveClass _ => Option C
  | .resolveEnum _ => Option E
  | .enumConstruct .. => Option V
  | .parseFloat _ | .newArray | .newObject | .createEmptyInstance _ | .createEnum .. | .newList | .newStringMap
  | .newIntMap | .newObjectMap | .dateFromString _ | .dateFromTime _ | .alloc _ | .user _ => V

/-- What the `hxUnserialize` of a class may do with the unserializer, whose position it does not see. -/
inductive CustomOp (V C E : Type) where
  | unserialize
  /-- `unserialize` in a `try` -/
  | attempt
  | lib (o : LibOp V C E)

@[reducible] def CustomOp.Res : CustomOp V C E → Type
  | .unserialize => V
  | .attempt => Option V
  | .lib o => o.Res

abbrev customSig (V C E : Type) : Sig := ⟨CustomOp V C E, CustomOp.Res⟩

/-- A target, with the heap `σ`. -/
structure Host (V C E σ : Type) where
  null : V
  bool : Bool → V
  int : Int → V
  string : Str → V
  nan : V
  negativeInfinity : V
  positiveInfinity : V
  ofClass : C → V
  ofEnum : E → V
  wrap : Int → Int
  /-- What `CODES` has for another character. -/
  noCode : Nat
  call : (o : LibOp V C E) → σ → Except V o.Res × σ
  hxUnserialize : V → Prog (customSig V C E) (Error V) Unit

/-! ## State -/

structure State (V σ : Type) where
  buf : Str
  pos : Int
  cache : List V
  scache : List Str
  heap : σ

namespace State

/-- `get(pos + k)` -/
def get (s : State V σ) (k : Nat) : Option Nat :=
  if 0 ≤ s.pos + k then s.buf[(s.pos + k).toNat]? else none

/-- The text from the position on. -/
def rest (s : State V σ) : Str := if 0 ≤ s.pos then s.buf.drop s.pos.toNat else []

def move (s : State V σ) (n : Int) : State V σ := { s with pos := s.pos + n }

end State

/-- The loop of `readDigits`, and how many characters it goes over. -/
def digitsLoop (wrap : Int → Int) (first : Bool) (k : Int) (s : Bool) : Str → Int × Nat
  | [] => (if s then wrap (k * -1) else k, 0)
  | c :: text =>
    if c = '-'.toNat then
      if first then
        let (k, n) := digitsLoop wrap false k true text
        (k, n + 1)
      else (if s then wrap (k * -1) else k, 0)
    else if c < '0'.toNat ∨ c > '9'.toNat then (if s then wrap (k * -1) else k, 0)
    else
      let (k, n) := digitsLoop wrap false (wrap (k * 10 + (c - '0'.toNat : Nat))) s text
      (k, n + 1)

/-- The characters that `readFloat` goes over. -/
def isFloatChar (c : Nat) : Bool := (43 ≤ c && c < 58) || c == 'e'.toNat || c == 'E'.toNat

def base64 : Str :=
  "ABCDEFGHIJKLMNOPQRSTUVWXYZabcdefghijklmnopqrstuvwxyz0123456789%:".toList.map Char.toNat

/-- An entry of `CODES`. -/
def Host.codes (H : Host V C E σ) (c : Option Nat) : Nat := (base64.findIdx? (some · = c)).getD H.noCode

/-! ## Operations -/

inductive Op (V C E : Type) where
  | unserialize
  | attempt
  | unserializeObject (o : V)
  | unserializeEnum (edecl : E) (tag : V)
  | enumArgs (nargs : Int) (args : V)
  | arrayLoop (a : V)
  | listLoop (l : V)
  | mapLoop (h : V)
  | intMapLoop (h : V)
  | hxUnserialize (o : V)
  | get (k : Nat)
  | readDigits
  | floatText
  /-- `pos += n` -/
  | skip (n : Int)
  /-- `length - pos` -/
  | remaining
  /-- `buf.fastSubstr(pos, len)` -/
  | substr (len : Int)
  /-- `codes[StringTools.fastCodeAt(buf, pos + i)]` -/
  | codeAt (i : Nat)
  | cachePush (v : V)
  | cacheAt (n : Int)
  | scachePush (s : Str)
  | scacheAt (n : Int)
  | lib (o : LibOp V C E)
  | throwInvalidChar

@[reducible] def Op.Res : Op V C E → Type
  | .unserialize | .unserializeEnum .. | .throwInvalidChar => V
  | .attempt | .cacheAt _ => Option V
  | .scacheAt _ => Option Str
  | .get _ => Option Nat
  | .readDigits | .remaining => Int
  | .floatText | .substr _ => Str
  | .codeAt _ => Nat
  | .lib o => o.Res
  | .unserializeObject _ | .enumArgs .. | .arrayLoop _ | .listLoop _ | .mapLoop _ | .intMapLoop _ | .hxUnserialize _
  | .skip _ | .cachePush _ | .scachePush _ => Unit

abbrev sig (V C E : Type) : Sig := ⟨Op V C E, Op.Res⟩

abbrev M (V C E α : Type) := Prog (sig V C E) (Error V) α

/-- The call of an operation. -/
abbrev call (o : Op V C E) : M V C E o.Res := Prog.op (S := sig V C E) o

abbrev lib (o : LibOp V C E) : M V C E o.Res := call (.lib o)

/-! ## Functions -/

variable (H : Host V C E σ)

def readFloat : M V C E V := do
  let text ← call .floatText
  lib (.parseFloat text)

def unserializeObject (o : V) : M V C E Unit := do
  if (← call .remaining) ≤ 0 then .raise .invalidObject
  if (← call (.get 0)) = some 'g'.toNat then call (.skip 1)
  else
    let k ← call .unserialize
    match ← lib (.asString k) with
    | none => .raise .invalidObjectKey
    | some k =>
      let v ← call .unserialize
      lib (.setField o k v)
      call (.unserializeObject o)

def enumArgs (nargs : Int) (args : V) : M V C E Unit := do
  if nargs > 0 then
    let v ← call .unserialize
    lib (.push args v)
    call (.enumArgs (nargs - 1) args)

def unserializeEnum (edecl : E) (tag : V) : M V C E V := do
  let c ← call (.get 0)
  call (.skip 1)
  if c ≠ some ':'.toNat then .raise .invalidEnumFormat
  let nargs ← call .readDigits
  if nargs = 0 then lib (.createEnum edecl tag none)
  else
    let args ← lib .newArray
    call (.enumArgs nargs args)
    lib (.createEnum edecl tag (some args))

/-- The loop of `a`. -/
def arrayLoop (a : V) : M V C E Unit := do
  let c ← call (.get 0)
  if c = some 'h'.toNat then call (.skip 1)
  else if c = some 'u'.toNat then
    call (.skip 1)
    let n ← call .readDigits
    lib (.setNull a n)
    call (.arrayLoop a)
  else
    let v ← call .unserialize
    lib (.push a v)
    call (.arrayLoop a)

/-- The loop of `l`. -/
def listLoop (l : V) : M V C E Unit := do
  if (← call (.get 0)) = some 'h'.toNat then call (.skip 1)
  else
    let v ← call .unserialize
    lib (.add l v)
    call (.listLoop l)

/-- The loop of `b` and of `M`. -/
def mapLoop (h : V) : M V C E Unit := do
  if (← call (.get 0)) = some 'h'.toNat then call (.skip 1)
  else
    let s ← call .unserialize
    let v ← call .unserialize
    lib (.set h s v)
    call (.mapLoop h)

/-- The loop of `q`, from the reading of `c` on. -/
def intMapLoop (h : V) : M V C E Unit := do
  let c ← call (.get 0)
  call (.skip 1)
  if c = some ':'.toNat then
    let i ← call .readDigits
    let v ← call .unserialize
    lib (.setInt h i v)
    call (.intMapLoop h)
  else if c ≠ some 'h'.toNat then .raise .invalidIntMapFormat

/-- The loop of `s` over groups of four characters, from the `i`-th one of the item on. -/
def decodeLoop (bytes : V) (i : Nat) (bpos : Int) : Nat → M V C E Unit
  | 0 => pure ()
  | rounds + 1 => do
    let c1 ← call (.codeAt i)
    let c2 ← call (.codeAt (i + 1))
    lib (.setByte bytes bpos ((c1 <<< 2) ||| (c2 >>> 4)))
    let c3 ← call (.codeAt (i + 2))
    lib (.setByte bytes (bpos + 1) ((c2 <<< 4) ||| (c3 >>> 2)))
    let c4 ← call (.codeAt (i + 3))
    lib (.setByte bytes (bpos + 2) ((c3 <<< 6) ||| c4))
    decodeLoop bytes (i + 4) (bpos + 3) rounds

/-- What `s` does behind its loop. -/
def decodeRest (bytes : V) (i : Nat) (bpos rest : Int) : M V C E Unit := do
  if rest ≥ 2 then
    let c1 ← call (.codeAt i)
    let c2 ← call (.codeAt (i + 1))
    lib (.setByte bytes bpos ((c1 <<< 2) ||| (c2 >>> 4)))
    if rest = 3 then
      let c3 ← call (.codeAt (i + 2))
      lib (.setByte bytes (bpos + 1) ((c2 <<< 4) ||| (c3 >>> 2)))

/-- A length and the colon behind it, where the rest of the text is at least as long. -/
def readLength (err : Error V) : M V C E Int := do
  let len ← call .readDigits
  let c ← call (.get 0)
  call (.skip 1)
  let remaining ← call .remaining
  if c ≠ some ':'.toNat ∨ remaining < len then .raise err
  return len

/-- The branch of `y`. -/
def unserializeString : M V C E V := do
  let len ← readLength .invalidStringLength
  let s ← call (.substr len)
  call (.skip len)
  let s ← lib (.urlDecode s)
  call (.scachePush s)
  return H.string s

/-- The branch of `s`. -/
def unserializeBytes : M V C E V := do
  let len ← readLength .invalidBytesLength
  let rest := len % 4
  let size := len / 4 * 3 + if rest ≥ 2 then rest - 1 else 0
  let bytes ← lib (.alloc size)
  let rounds := (len / 4).toNat
  decodeLoop bytes 0 0 rounds
  decodeRest bytes (4 * rounds) (3 * rounds) rest
  call (.skip len)
  call (.cachePush bytes)
  return bytes

def isDigit (c : Option Nat) : Bool := c.any fun c => '0'.toNat ≤ c && c ≤ '9'.toNat

/-- The branch of `v`. -/
def unserializeDate : M V C E V := do
  let c0 ← call (.get 0)
  let c1 ← call (.get 1)
  let c2 ← call (.get 2)
  let c3 ← call (.get 3)
  let c4 ← call (.get 4)
  let d ← if isDigit c0 ∧ isDigit c1 ∧ isDigit c2 ∧ isDigit c3 ∧ c4 = some '-'.toNat then do
      let text ← call (.substr 19)
      let d ← lib (.dateFromString text)
      call (.skip 19)
      pure d
    else do
      let t ← readFloat
      lib (.dateFromTime t)
  call (.cachePush d)
  return d

/-- A name, and the class that the resolver has for it. -/
def readClass : M V C E C := do
  let name ← call .unserialize
  match ← lib (.resolveClass name) with
  | none => .raise (.classNotFound name)
  | some cl => return cl

def readEnum : M V C E (V × E) := do
  let name ← call .unserialize
  match ← lib (.resolveEnum name) with
  | none => .raise (.enumNotFound name)
  | some edecl => return (name, edecl)

/-- A new container in the cache, filled by a loop. -/
def container (new : LibOp V C E) (hnew : new.Res = V) (loop : V → M V C E Unit) : M V C E V := do
  let v ← lib new
  let v : V := cast hnew v
  call (.cachePush v)
  loop v
  return v

/-- The cases of `unserialize`. -/
def branch (c : Nat) : Option (M V C E V) :=
  if c = 'n'.toNat then some (pure H.null)
  else if c = 't'.toNat then some (pure (H.bool true))
  else if c = 'f'.toNat then some (pure (H.bool false))
  else if c = 'z'.toNat then some (pure (H.int 0))
  else if c = 'i'.toNat then some do return H.int (← call .readDigits)
  else if c = 'd'.toNat then some readFloat
  else if c = 'y'.toNat then some (unserializeString H)
  else if c = 'k'.toNat then some (pure H.nan)
  else if c = 'm'.toNat then some (pure H.negativeInfinity)
  else if c = 'p'.toNat then some (pure H.positiveInfinity)
  else if c = 'a'.toNat then some (container .newArray rfl fun a => call (.arrayLoop a))
  else if c = 'o'.toNat then some (container .newObject rfl fun o => call (.unserializeObject o))
  else if c = 'r'.toNat then some do
    let n ← call .readDigits
    match ← call (.cacheAt n) with
    | none => .raise .invalidReference
    | some v => return v
  else if c = 'R'.toNat then some do
    let n ← call .readDigits
    match ← call (.scacheAt n) with
    | none => .raise .invalidStringReference
    | some s => return H.string s
  else if c = 'x'.toNat then some do .raise (.thrown (← call .unserialize))
  else if c = 'c'.toNat then some do
    let cl ← readClass
    container (.createEmptyInstance cl) rfl fun o => call (.unserializeObject o)
  else if c = 'w'.toNat then some do
    let (_, edecl) ← readEnum
    let tag ← call .unserialize
    let e ← call (.unserializeEnum edecl tag)
    call (.cachePush e)
    return e
  else if c = 'j'.toNat then some do
    let (name, edecl) ← readEnum
    call (.skip 1)
    let index ← call .readDigits
    match ← lib (.enumConstruct edecl index) with
    | none => .raise (.unknownEnumIndex name index)
    | some tag =>
      let e ← call (.unserializeEnum edecl tag)
      call (.cachePush e)
      return e
  else if c = 'l'.toNat then some (container .newList rfl fun l => call (.listLoop l))
  else if c = 'b'.toNat then some (container .newStringMap rfl fun h => call (.mapLoop h))
  else if c = 'q'.toNat then some (container .newIntMap rfl fun h => call (.intMapLoop h))
  else if c = 'M'.toNat then some (container .newObjectMap rfl fun h => call (.mapLoop h))
  else if c = 'v'.toNat then some unserializeDate
  else if c = 's'.toNat then some unserializeBytes
  else if c = 'C'.toNat then some do
    let cl ← readClass
    let o ← lib (.createEmptyInstance cl)
    call (.cachePush o)
    call (.hxUnserialize o)
    let c ← call (.get 0)
    call (.skip 1)
    if c ≠ some 'g'.toNat then .raise .invalidCustomData
    return o
  else if c = 'A'.toNat then some do return H.ofClass (← readClass)
  else if c = 'B'.toNat then some do return H.ofEnum (← readEnum).2
  else none

/-- The position is moved by the switch; its default case takes that back. -/
def unserialize : M V C E V := do
  let c ← call (.get 0)
  match c.bind (branch H) with
  | none => call .throwInvalidChar
  | some p =>
    call (.skip 1)
    p

/-! ## The system -/

/-- A library call. -/
def Host.prim (o : LibOp V C E) (s : State V σ) : Outcome (Error V) o.Res × State V σ :=
  match H.call o s.heap with
  | (.ok r, heap) => (.ok r, { s with heap })
  | (.error e, heap) => (.error (.thrown e), { s with heap })

def CustomOp.program : (o : CustomOp V C E) → M V C E o.Res
  | .unserialize => call .unserialize
  | .attempt => call .attempt
  | .lib o => call (.lib o)

/-- An entry of the caches. -/
def entry {α : Type} (l : List α) (n : Int) : Option α := if n < 0 then none else l[n.toNat]?

def system : System (sig V C E) (Error V) (State V σ)
  | .unserialize => .prog (unserialize H)
  | .attempt => .after .unserialize fun r s =>
    match r with
    | .ok v => (.ok (some v), s)
    | _ => (.ok none, s)
  | .unserializeObject o => .prog (unserializeObject o)
  | .unserializeEnum edecl tag => .prog (unserializeEnum edecl tag)
  | .enumArgs nargs args => .prog (enumArgs nargs args)
  | .arrayLoop a => .prog (arrayLoop a)
  | .listLoop l => .prog (listLoop l)
  | .mapLoop h => .prog (mapLoop h)
  | .intMapLoop h => .prog (intMapLoop h)
  | .hxUnserialize o => .prog ((H.hxUnserialize o).interp CustomOp.program)
  | .get k => .prim fun s => (.ok (s.get k), s)
  | .readDigits => .prim fun s =>
    let (k, n) := digitsLoop H.wrap true 0 false s.rest
    (.ok k, s.move n)
  | .floatText => .prim fun s =>
    let text := s.rest.takeWhile isFloatChar
    (.ok text, s.move text.length)
  | .skip n => .prim fun s => (.ok (), s.move n)
  | .remaining => .prim fun s => (.ok (s.buf.length - s.pos), s)
  | .substr len => .prim fun s => H.prim (.substr s.buf s.pos len) s
  | .codeAt i => .prim fun s => (.ok (H.codes (s.get i)), s)
  | .cachePush v => .prim fun s => (.ok (), { s with cache := s.cache ++ [v] })
  | .cacheAt n => .prim fun s => (.ok (entry s.cache n), s)
  | .scachePush str => .prim fun s => (.ok (), { s with scache := s.scache ++ [str] })
  | .scacheAt n => .prim fun s => (.ok (entry s.scache n), s)
  | .lib o => .prim (H.prim o)
  | .throwInvalidChar => .prim fun s => (.error (.invalidChar (s.get 0) s.pos), s)

/-- `new Unserializer(buf)` -/
def start (buf : Str) (heap : σ) : State V σ := ⟨buf, 0, [], [], heap⟩

/-- `Unserializer.run`, or none if it does not end. -/
def run (buf : Str) (heap : σ) : Option (Outcome (Error V) V × State V σ) :=
  exec (system H) .unserialize (start buf heap)

end EvilHaxe.Serial
