/-
XML trees (`Xml.hx`), and `haxe.xml.Printer` with what it uses of `StringTools`. A text is the list of its characters.
-/
import Mathlib.Data.List.Basic

namespace EvilHaxe.Xml

abbrev Str := List Char

/-- The attributes are the bindings of a map, each name once. A document is the list of its children. -/
inductive Node where
  | element (nodeName : Str) (attributes : List (Str × Str)) (children : List Node)
  | pcData (nodeValue : Str)
  | cData (nodeValue : Str)
  | comment (nodeValue : Str)
  | docType (nodeValue : Str)
  | processingInstruction (nodeValue : Str)

/-! ## `StringTools` -/

def isSpace (c : Char) : Bool := (8 < c.toNat && c.toNat < 14) || c.toNat == 32

def ltrim (s : Str) : Str := s.dropWhile isSpace

def rtrim (s : Str) : Str := (s.reverse.dropWhile isSpace).reverse

def trim (s : Str) : Str := ltrim (rtrim s)

def escapeChar (quotes : Bool) (c : Char) : Str :=
  if c = '&' then "&amp;".toList
  else if c = '<' then "&lt;".toList
  else if c = '>' then "&gt;".toList
  else if c = '"' ∧ quotes = true then "&quot;".toList
  else if c = '\'' ∧ quotes = true then "&#039;".toList
  else [c]

def htmlEscape (s : Str) (quotes : Bool) : Str := s.flatMap (escapeChar quotes)

/-! ## The printer -/

def hasChildren (children : List Node) : Bool :=
  children.any fun
    | .element .. | .pcData _ => true
    | .cData v | .comment v => !(ltrim v).isEmpty
    | _ => false

/-- What the regular expression of the printer takes out of a comment. -/
def isBreak (c : Char) : Bool := c == '\n' || c == '\r' || c == '\t'

def writeComment (v : Str) : Str :=
  trim ("<!--".toList ++ v.filter (!isBreak ·) ++ "-->".toList)

def writeAttribute (attr : Str × Str) : Str := [' '] ++ attr.1 ++ "=\"".toList ++ htmlEscape attr.2 true ++ ['"']

def newline (pretty : Bool) : Str := if pretty then ['\n'] else []

mutual

/-- `keys` is the order in which a map enumerates its bindings. -/
def writeNode (keys : List (Str × Str) → List (Str × Str)) (pretty : Bool) : Str → Node → Str
  | tabs, .cData v => tabs ++ "<![CDATA[".toList ++ v ++ "]]>".toList ++ newline pretty
  | tabs, .comment v => tabs ++ writeComment v ++ newline pretty
  | tabs, .element name attributes children =>
    tabs ++ ['<'] ++ name ++ (keys attributes).flatMap writeAttribute ++
      if hasChildren children then
        ['>'] ++ newline pretty ++ writeNodes keys pretty (if pretty then tabs ++ ['\t'] else tabs) children ++
          tabs ++ "</".toList ++ name ++ ['>'] ++ newline pretty
      else "/>".toList ++ newline pretty
  | tabs, .pcData v => if v.isEmpty then [] else tabs ++ htmlEscape v false ++ newline pretty
  | _, .processingInstruction v => "<?".toList ++ v ++ "?>".toList ++ newline pretty
  | _, .docType v => "<!DOCTYPE ".toList ++ v ++ ['>'] ++ newline pretty

def writeNodes (keys : List (Str × Str) → List (Str × Str)) (pretty : Bool) : Str → List Node → Str
  | _, [] => []
  | tabs, child :: children => writeNode keys pretty tabs child ++ writeNodes keys pretty tabs children

end

section Equations

variable (keys : List (Str × Str) → List (Str × Str)) (pretty : Bool) (tabs : Str)

theorem writeNode_cData (v : Str) :
    writeNode keys pretty tabs (.cData v) = tabs ++ "<![CDATA[".toList ++ v ++ "]]>".toList ++ newline pretty := rfl

theorem writeNode_comment (v : Str) : writeNode keys pretty tabs (.comment v) = tabs ++ writeComment v ++ newline pretty := rfl

theorem writeNode_element (name : Str) (attributes : List (Str × Str)) (children : List Node) :
    writeNode keys pretty tabs (.element name attributes children) =
      tabs ++ ['<'] ++ name ++ (keys attributes).flatMap writeAttribute ++
        if hasChildren children then
          ['>'] ++ newline pretty ++ writeNodes keys pretty (if pretty then tabs ++ ['\t'] else tabs) children ++
            tabs ++ "</".toList ++ name ++ ['>'] ++ newline pretty
        else "/>".toList ++ newline pretty := rfl

theorem writeNode_pcData (v : Str) : writeNode keys pretty tabs (.pcData v) =
    if v.isEmpty then [] else tabs ++ htmlEscape v false ++ newline pretty := rfl

theorem writeNode_processingInstruction (v : Str) :
    writeNode keys pretty tabs (.processingInstruction v) = "<?".toList ++ v ++ "?>".toList ++ newline pretty := rfl

theorem writeNode_docType (v : Str) :
    writeNode keys pretty tabs (.docType v) = "<!DOCTYPE ".toList ++ v ++ ['>'] ++ newline pretty := rfl

theorem writeNodes_nil : writeNodes keys pretty tabs [] = [] := rfl

theorem writeNodes_cons (child : Node) (children : List Node) : writeNodes keys pretty tabs (child :: children) =
    writeNode keys pretty tabs child ++ writeNodes keys pretty tabs children := rfl

end Equations

/-- `Printer.print` of a document. -/
def print (keys : List (Str × Str) → List (Str × Str)) (doc : List Node) (pretty : Bool) : Str := writeNodes keys pretty [] doc

/-! `haxe.xml.Parser`: the machine of `doParse`. A position is given by what is left of the text there, and the start of a part
of the text by what has been read since. The loop takes fuel. -/

/-- The enumeration `S` of the states. -/
inductive S where
  | ignoreSpaces | begin | beginNode | tagName | body | attribName | equals | attvalBegin | attribVal | childs | close
  | waitEnd | waitEndRet | pcData | header | comment | docType | cData | escape
deriving DecidableEq

/-- `XmlParserException`: the message, and what is left of the text at the position. `none` is the fuel. -/
abbrev Exn := Option (Str × Str)

/-- What the parser takes from the target's standard library: what `StringBuf.addChar` appends, where no number was read
as well. -/
structure Target where
  addChar : Option Int → Str
  addChar_ascii : ∀ c : Char, c.toNat < 128 → addChar (some c.toNat) = [c]
  addChar_ne : ∀ c, addChar c ≠ []

def isValidChar (c : Char) : Bool :=
  ('a' ≤ c && c ≤ 'z') || ('A' ≤ c && c ≤ 'Z') || ('0' ≤ c && c ≤ '9') || c == ':' || c == '.' || c == '_' || c == '-'

/-- `Std.parseInt`: spaces, a sign, and as many digits as there are. -/
def parseInt (s : Str) : Option Int :=
  let s := ltrim s
  let (sign, s) : Int × Str :=
    match s with
    | '-' :: s => (-1, s)
    | '+' :: s => (1, s)
    | s => (1, s)
  let (base, s) : Int × Str :=
    match s with
    | '0' :: 'x' :: s | '0' :: 'X' :: s => (16, s)
    | s => (10, s)
  let digit (c : Char) : Option Int :=
    if '0' ≤ c ∧ c ≤ '9' then some (c.toNat - '0'.toNat)
    else if base = 16 ∧ 'a' ≤ c ∧ c ≤ 'f' then some (c.toNat - 'a'.toNat + 10)
    else if base = 16 ∧ 'A' ≤ c ∧ c ≤ 'F' then some (c.toNat - 'A'.toNat + 10)
    else none
  match s.takeWhile fun c => (digit c).isSome with
  | [] => none
  | digits => some (sign * digits.foldl (fun n c => n * base + (digit c).getD 0) 0)

def escapes (s : Str) : Option Str :=
  if s = "lt".toList then some ['<']
  else if s = "gt".toList then some ['>']
  else if s = "amp".toList then some ['&']
  else if s = "quot".toList then some ['"']
  else if s = "apos".toList then some ['\'']
  else none

inductive Parent where
  | document
  | element (nodeName : Str)

/-- The locals of `doParse`. `start` is the text since the start of the current part, and `kids` are the children of the
parent, the last one first; `xml` is the last one. -/
structure Vars where
  state : S
  next : S
  aname : Str
  start : Str
  nsubs : Nat
  nbrackets : Int
  buf : Str
  escapeNext : S
  attrValQuote : Option Char
  kids : List Node

namespace Vars

def init : Vars := ⟨.begin, .begin, [], [], 0, 0, [], .begin, none, []⟩

/-- The loop goes on to the next character. -/
def read (v : Vars) (c : Char) : Vars := { v with start := v.start ++ [c] }

def ignoreSpaces (v : Vars) (next : S) : Vars := { v with state := .ignoreSpaces, next }

/-- A part begins. -/
def enter (v : Vars) (state : S) : Vars := { v with state, start := [] }

def addChild (v : Vars) (child : Node) : Vars := { v with kids := child :: v.kids, nsubs := v.nsubs + 1 }

def nodeName (v : Vars) : Str :=
  match v.kids with
  | .element name _ _ :: _ => name
  | _ => []

def exists_ (v : Vars) (aname : Str) : Bool :=
  match v.kids with
  | .element _ attributes _ :: _ => (attributes.lookup aname).isSome
  | _ => false

/-- `xml.set(aname, val)`, where `xml` has no such attribute. -/
def set (v : Vars) (val : Str) : Vars :=
  match v.kids with
  | .element name attributes children :: kids =>
    { v with kids := .element name (attributes ++ [(v.aname, val)]) children :: kids }
  | _ => v

def setChildren (v : Vars) (children : List Node) : Vars :=
  match v.kids with
  | .element name attributes _ :: kids => { v with kids := .element name attributes children :: kids }
  | _ => v

end Vars

inductive Next where
  | loop (v : Vars) (rest : Str)
  /-- `doParse` is called for the children of `xml`. -/
  | descend
  | return (v : Vars)

def fail {α : Type} (message : String) (rest : Str) : Except Exn α := .error (some (message.toList, rest))

/-! ## The states -/

def stepPCData (v : Vars) (c : Char) (cs : Str) : Next :=
  if c = '<' then
    .loop ({ v.addChild (.pcData (v.buf ++ v.start)) with buf := [] }.ignoreSpaces .beginNode) cs
  else if c = '&' then .loop { v.enter .escape with buf := v.buf ++ v.start, escapeNext := .pcData } cs
  else .loop (v.read c) cs

/-- A part that ends with `stop`. -/
def stepUntil (stop : Str) (child : Str → Node) (v : Vars) (c : Char) (cs : Str) : Next :=
  if stop.isPrefixOf (c :: cs) then .loop { v.addChild (child v.start) with state := .begin } ((c :: cs).drop stop.length)
  else .loop (v.read c) cs

def stepBeginNode (v : Vars) (c : Char) (cs : Str) : Except Exn Next :=
  if c = '!' then
    if cs.head? = some '[' then
      let r := cs.drop 1
      if (r.take 6).map Char.toUpper ≠ "CDATA[".toList then fail "Expected <![CDATA[" r
      else .ok (.loop (v.enter .cData) (r.drop 6))
    else if cs.head? = some 'D' ∨ cs.head? = some 'd' then
      if ((cs.drop 1).take 6).map Char.toUpper ≠ "OCTYPE".toList then fail "Expected <!DOCTYPE" (c :: cs)
      else .ok (.loop (v.enter .docType) (cs.drop 8))
    else if ¬ ("--".toList.isPrefixOf cs) then fail "Expected <!--" (c :: cs)
    else .ok (.loop (v.enter .comment) (cs.drop 2))
  else if c = '?' then .ok (.loop { v with state := .header, start := [c] } cs)
  else if c = '/' then .ok (.loop ({ v with start := [] }.ignoreSpaces .close) cs)
  else .ok (.loop (v.enter .tagName) (c :: cs))

def stepTagName (v : Vars) (c : Char) (cs : Str) : Except Exn Next :=
  if isValidChar c then .ok (.loop (v.read c) cs)
  else if v.start = [] then fail "Expected node name" (c :: cs)
  else .ok (.loop ((v.addChild (.element v.start [] [])).ignoreSpaces .body) (c :: cs))

def stepAttribName (v : Vars) (c : Char) (cs : Str) : Except Exn Next :=
  if isValidChar c then .ok (.loop (v.read c) cs)
  else if v.start = [] then fail "Expected attribute name" (c :: cs)
  else if v.exists_ v.start then .error (some ("Duplicate attribute [".toList ++ v.start ++ "]".toList, c :: cs))
  else .ok (.loop ({ v with aname := v.start }.ignoreSpaces .equals) (c :: cs))

def stepAttribVal (strict : Bool) (v : Vars) (c : Char) (cs : Str) : Except Exn Next :=
  if c = '&' then .ok (.loop { v.enter .escape with buf := v.buf ++ v.start, escapeNext := .attribVal } cs)
  else if (c = '>' ∨ c = '<') ∧ strict = true then
    .error (some ("Invalid unescaped ".toList ++ [c] ++ " in attribute value".toList, c :: cs))
  else if some c = v.attrValQuote then .ok (.loop ({ v.set (v.buf ++ v.start) with buf := [] }.ignoreSpaces .body) cs)
  else .ok (.loop (v.read c) cs)

def stepClose (parent : Parent) (v : Vars) (c : Char) (cs : Str) : Except Exn Next :=
  if isValidChar c then .ok (.loop (v.read c) cs)
  else if v.start = [] then fail "Expected node name" (c :: cs)
  else
    match parent with
    | .document => .error (some ("Unexpected </".toList ++ v.start ++ ">, tag is not open".toList, c :: cs))
    | .element name =>
      if v.start ≠ name then .error (some ("Expected </".toList ++ name ++ ">".toList, c :: cs))
      else .ok (.loop (v.ignoreSpaces .waitEndRet) (c :: cs))

def stepDocType (v : Vars) (c : Char) (cs : Str) : Next :=
  if c = '[' then .loop { v.read c with nbrackets := v.nbrackets + 1 } cs
  else if c = ']' then .loop { v.read c with nbrackets := v.nbrackets - 1 } cs
  else if c = '>' ∧ v.nbrackets = 0 then .loop { v.addChild (.docType v.start) with state := .begin } cs
  else .loop (v.read c) cs

/-- The characters that the entity `s` stands for. -/
def entity (T : Target) (s : Str) : Option Str :=
  if s.head? = some '#' then
    some (T.addChar (if (s.drop 1).head? = some 'x' then parseInt ('0' :: s.drop 1) else parseInt (s.drop 1)))
  else escapes s

def stepEscape (T : Target) (strict : Bool) (v : Vars) (c : Char) (cs : Str) : Except Exn Next :=
  if c = ';' then
    match entity T v.start with
    | some t => .ok (.loop { v.enter v.escapeNext with buf := v.buf ++ t } cs)
    | none =>
      if strict then .error (some ("Undefined entity: ".toList ++ v.start, c :: cs))
      else .ok (.loop { v.enter v.escapeNext with buf := v.buf ++ ['&'] ++ v.start ++ [';'] } cs)
  else if !isValidChar c && c ≠ '#' then
    if strict then .error (some ("Invalid character in entity: ".toList ++ [c], c :: cs))
    else .ok (.loop { v.enter v.escapeNext with buf := v.buf ++ ['&'] ++ v.start } (c :: cs))
  else .ok (.loop (v.read c) cs)

/-- One round of the loop, at the character `c`. -/
def step (T : Target) (strict : Bool) (parent : Parent) (v : Vars) (c : Char) (cs : Str) : Except Exn Next :=
  match v.state with
  | .ignoreSpaces =>
    if c = '\n' ∨ c = '\r' ∨ c = '\t' ∨ c = ' ' then .ok (.loop (v.read c) cs)
    else .ok (.loop { v with state := v.next } (c :: cs))
  | .begin =>
    if c = '<' then .ok (.loop (v.ignoreSpaces .beginNode) cs)
    else .ok (.loop (v.enter .pcData) (c :: cs))
  | .pcData => .ok (stepPCData v c cs)
  | .cData => .ok (stepUntil "]]>".toList .cData v c cs)
  | .beginNode => stepBeginNode v c cs
  | .tagName => stepTagName v c cs
  | .body =>
    if c = '/' then .ok (.loop { v with state := .waitEnd } cs)
    else if c = '>' then .ok (.loop { v with state := .childs } cs)
    else .ok (.loop (v.enter .attribName) (c :: cs))
  | .attribName => stepAttribName v c cs
  | .equals => if c = '=' then .ok (.loop (v.ignoreSpaces .attvalBegin) cs) else fail "Expected =" (c :: cs)
  | .attvalBegin =>
    if c = '"' ∨ c = '\'' then .ok (.loop { v.enter .attribVal with buf := [], attrValQuote := some c } cs)
    else fail "Expected \"" (c :: cs)
  | .attribVal => stepAttribVal strict v c cs
  | .childs => .ok .descend
  | .waitEnd => if c = '>' then .ok (.loop { v with state := .begin } cs) else fail "Expected >" (c :: cs)
  | .waitEndRet =>
    if c = '>' then .ok (.return (if v.nsubs = 0 then { v with kids := .pcData [] :: v.kids } else v))
    else fail "Expected >" (c :: cs)
  | .close => stepClose parent v c cs
  | .comment => .ok (stepUntil "-->".toList .comment v c cs)
  | .docType => .ok (stepDocType v c cs)
  | .header => .ok (stepUntil "?>".toList (fun s => .processingInstruction (s.drop 1)) v c cs)
  | .escape => stepEscape T strict v c cs

/-- What is done at the end of the text. -/
def finish (strict : Bool) (parent : Parent) (v : Vars) : Except Exn Vars :=
  let v := if v.state = .begin then v.enter .pcData else v
  if v.state = .pcData then
    match parent with
    | .element name => .error (some ("Unclosed node <".toList ++ name ++ ">".toList, []))
    | .document => .ok (if v.start ≠ [] ∨ v.nsubs = 0 then v.addChild (.pcData (v.buf ++ v.start)) else v)
  else if strict = false ∧ v.state = .escape ∧ v.escapeNext = .pcData then
    .ok (v.addChild (.pcData (v.buf ++ ['&'] ++ v.start)))
  else fail "Unexpected end" []

/-- The children of the parent, and what is left of the text at the position that is returned. -/
def doParse (T : Target) (strict : Bool) : Nat → Parent → Vars → Str → Except Exn (List Node × Str)
  | 0, _, _, _ => .error none
  | _ + 1, parent, v, [] => do return ((← finish strict parent v).kids.reverse, [])
  | n + 1, parent, v, c :: cs => do
    match ← step T strict parent v c cs with
    | .loop v rest => doParse T strict n parent v rest
    | .return v => return (v.kids.reverse, c :: cs)
    | .descend =>
      let (children, rest) ← doParse T strict n (.element v.nodeName) .init (c :: cs)
      doParse T strict n parent ({ v.setChildren children with state := .begin }) (rest.drop 1)

/-- The children of the document. -/
def parse (T : Target) (n : Nat) (str : Str) (strict : Bool) : Except Exn (List Node) := do
  return (← doParse T strict n .document .init str).1

end EvilHaxe.Xml
