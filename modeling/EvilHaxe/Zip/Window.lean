/-
The window of `haxe.zip.InflateImpl`: the last bytes of what has been written. When its buffer is full it slides, and at
least `SIZE` bytes are kept, so that whatever a match refers to is there. Whatever is written, in whatever buffers, the
output is the text that the literals and matches stand for, and the checksum is that of the whole text.
-/
import EvilHaxe.Lib.BackReferences
import Mathlib.Data.Nat.Bitwise

namespace EvilHaxe.Zip

open Lib

/-! ## `haxe.crypto.Adler32` -/

structure Adler32 where
  a1 : Nat
  a2 : Nat

namespace Adler32

def new : Adler32 := ⟨1, 0⟩

/-- One round of the loop of `update`. -/
def round (a : Adler32) (c : UInt8) : Adler32 :=
  let a1 := (a.a1 + c.toNat) % 65521
  ⟨a1, (a.a2 + a1) % 65521⟩

def update (a : Adler32) (b : List UInt8) (pos len : Nat) : Adler32 := ((b.drop pos).take len).foldl round a

/-- The checksum of a text. -/
def of (bytes : List UInt8) : Adler32 := bytes.foldl round new

theorem of_append (front back : List UInt8) : back.foldl round (of front) = of (front ++ back) :=
  List.foldl_append.symm

end Adler32

/-! ## The window -/

/-- `Bytes.blit`; `none` is `OutsideBounds`. -/
def blit (b : List UInt8) (pos : Nat) (src : List UInt8) (srcpos len : Nat) : Option (List UInt8) :=
  if b.length < pos + len ∨ src.length < srcpos + len then none
  else some (b.take pos ++ (src.drop srcpos).take len ++ b.drop (pos + len))

/-- `1 << 15` -/
def SIZE : Nat := 32768

/-- `1 << 16` -/
def BUFSIZE : Nat := 65536

structure Window where
  buffer : List UInt8
  pos : Nat
  crc : Option Adler32

namespace Window

def new (hasCrc : Bool) : Window := ⟨List.replicate BUFSIZE 0, 0, if hasCrc then some .new else none⟩

/-- `slide`; `none` is the exception of `blit` at a position below zero. -/
def slide (w : Window) : Option Window :=
  if w.pos < SIZE then none
  else do
    let b ← blit (List.replicate BUFSIZE 0) 0 w.buffer SIZE (w.pos - SIZE)
    return ⟨b, w.pos - SIZE, w.crc.map fun crc => crc.update w.buffer 0 SIZE⟩

def addBytes (w : Window) (b : List UInt8) (p len : Nat) : Option Window :=
  (if BUFSIZE < w.pos + len then w.slide else some w).bind fun w =>
    (blit w.buffer w.pos b p len).map fun buffer => { w with buffer, pos := w.pos + len }

def addByte (w : Window) (c : UInt8) : Option Window :=
  (if w.pos = BUFSIZE then w.slide else some w).map fun w =>
    { w with buffer := w.buffer.set w.pos c, pos := w.pos + 1 }

/-- `getLastChar`; `none` is the exception of `get` at a position below zero. -/
def getLastChar (w : Window) : Option UInt8 := if w.pos = 0 then none else w.buffer[w.pos - 1]?

def available (w : Window) : Nat := w.pos

def checksum (w : Window) : Option Adler32 := w.crc.map fun crc => crc.update w.buffer 0 w.pos

/-! ## What the window holds -/

/-- The window has the text from behind `front` on, and the checksum has `front`. -/
structure Ends (hasCrc : Bool) (history front : List UInt8) (w : Window) : Prop where
  length : w.buffer.length = BUFSIZE
  text : history = front ++ w.buffer.take w.pos
  crc : w.crc = if hasCrc then some (.of front) else none

/-- The window after a text has been written: it holds the end of it, all of it or a full `SIZE`. -/
structure Holds (hasCrc : Bool) (history : List UInt8) (w : Window) : Prop where
  pos_le : w.pos ≤ BUFSIZE
  ends : ∃ front, Ends hasCrc history front w ∧ (front = [] ∨ SIZE ≤ w.pos)

variable {hasCrc : Bool} {history : List UInt8} {w : Window}

theorem holds_new (hasCrc : Bool) : Holds hasCrc [] (new hasCrc) where
  pos_le := Nat.zero_le _
  ends := ⟨[], ⟨List.length_replicate, rfl, rfl⟩, .inl rfl⟩

/-- A position that a match may refer to is in the window. -/
theorem Holds.le_available (h : Holds hasCrc history w) {d : Nat} (hsize : d ≤ SIZE) (hd : d ≤ history.length) :
    d ≤ w.available := by
  obtain ⟨front, hends, rfl | hpos⟩ := h.ends
  · rw [hends.text, List.nil_append, List.length_take] at hd
    exact hd.trans (min_le_left _ _)
  · exact hsize.trans hpos

theorem take_blit {b src b' : List UInt8} {pos srcpos len : Nat} (h : blit b pos src srcpos len = some b') :
    b'.take (pos + len) = b.take pos ++ (src.drop srcpos).take len ∧ b'.length = b.length := by
  unfold blit at h
  split at h
  · cases h
  next hle =>
    cases h
    have hfront : (b.take pos ++ (src.drop srcpos).take len).length = pos + len := by
      rw [List.length_append, List.length_take, List.length_take, List.length_drop]
      omega
    constructor
    · rw [List.take_append_of_le_length hfront.ge, List.take_of_length_le hfront.le]
    · rw [List.length_append, hfront, List.length_drop]
      omega

theorem blit_of_le {b src : List UInt8} {pos srcpos len : Nat} (hb : pos + len ≤ b.length)
    (hsrc : srcpos + len ≤ src.length) : ∃ b', blit b pos src srcpos len = some b' := by
  unfold blit
  rw [if_neg (by omega)]
  exact ⟨_, rfl⟩

/-- A slide leaves the end of the text behind, and takes the rest into the checksum. -/
theorem Holds.slide (h : Holds hasCrc history w) (hpos : SIZE ≤ w.pos) :
    ∃ w' front, w.slide = some w' ∧ w'.pos + SIZE = w.pos ∧ Ends hasCrc history front w' := by
  have hle := h.pos_le
  obtain ⟨front, ⟨hlength, htext, hcrc⟩, -⟩ := h.ends
  have hsplit : w.buffer.take w.pos = w.buffer.take SIZE ++ (w.buffer.drop SIZE).take (w.pos - SIZE) := by
    rw [← List.take_add, Nat.add_sub_cancel' hpos]
  obtain ⟨b, hb⟩ := @blit_of_le (List.replicate BUFSIZE 0) w.buffer 0 SIZE (w.pos - SIZE)
    (by rw [List.length_replicate]; omega) (by omega)
  obtain ⟨htake, hlen⟩ := take_blit hb
  rw [List.take_zero, List.nil_append, Nat.zero_add] at htake
  rw [List.length_replicate] at hlen
  refine ⟨⟨b, w.pos - SIZE, w.crc.map fun crc => crc.update w.buffer 0 SIZE⟩, front ++ w.buffer.take SIZE, ?_,
    Nat.sub_add_cancel hpos, hlen, ?_, ?_⟩
  · unfold Window.slide
    rw [if_neg (Nat.not_lt.2 hpos), hb]
    rfl
  · rw [htext, hsplit, List.append_assoc, htake]
  · rw [hcrc]
    cases hasCrc with
    | false => rfl
    | true => exact congrArg some (Adler32.of_append front _)

/-- The room in front of a write: a slide where there is none. -/
theorem Holds.room (h : Holds hasCrc history w) {len : Nat} (hlen : len ≤ SIZE) :
    ∃ w' front, (if BUFSIZE < w.pos + len then w.slide else some w) = some w' ∧ w'.pos + len ≤ BUFSIZE ∧
      Ends hasCrc history front w' ∧ (front = [] ∨ SIZE ≤ w'.pos + len) := by
  have hpos := h.pos_le
  unfold SIZE BUFSIZE at *
  split
  next hfull =>
    obtain ⟨w', front, hslide, hsub, hends⟩ := h.slide (by unfold SIZE; omega)
    unfold SIZE at hsub
    exact ⟨w', front, hslide, by omega, hends, .inr (by omega)⟩
  next hfits =>
    obtain ⟨front, hends, hfront⟩ := h.ends
    exact ⟨w, front, rfl, by omega, hends, hfront.imp_right fun hsize => hsize.trans (Nat.le_add_right _ _)⟩

theorem Holds.addBytes (h : Holds hasCrc history w) {b : List UInt8} {p len : Nat} (hlen : len ≤ SIZE)
    (hb : p + len ≤ b.length) :
    ∃ w', w.addBytes b p len = some w' ∧ Holds hasCrc (history ++ (b.drop p).take len) w' := by
  obtain ⟨w1, front, hroom, hfits, ⟨hlength, htext, hcrc⟩, hfront⟩ := h.room hlen
  obtain ⟨buffer, hblit⟩ := blit_of_le (hlength ▸ hfits) hb
  obtain ⟨htake, hsame⟩ := take_blit hblit
  refine ⟨{ w1 with buffer, pos := w1.pos + len }, ?_, hfits, front, ⟨hsame.trans hlength, ?_, hcrc⟩, hfront⟩
  · unfold Window.addBytes
    rw [hroom, Option.bind_some, hblit]
    rfl
  · rw [htake, htext, List.append_assoc]

theorem Holds.addByte (h : Holds hasCrc history w) (c : UInt8) :
    ∃ w', w.addByte c = some w' ∧ Holds hasCrc (history ++ [c]) w' := by
  obtain ⟨w1, front, hroom, hfits, ⟨hlength, htext, hcrc⟩, hfront⟩ := h.room (show 1 ≤ SIZE by decide)
  have hpos := h.pos_le
  have hfull : w.pos = BUFSIZE ↔ BUFSIZE < w.pos + 1 := by omega
  refine ⟨{ w1 with buffer := w1.buffer.set w1.pos c, pos := w1.pos + 1 }, ?_, hfits, front,
    ⟨(List.length_set ..).trans hlength, ?_, hcrc⟩, hfront⟩
  · unfold Window.addByte
    simp only [hfull, hroom]
    rfl
  · have hget : (w1.buffer.set w1.pos c).take w1.pos = w1.buffer.take w1.pos := List.take_set_of_le (Nat.le_refl _)
    rw [htext, List.append_assoc, List.take_add_one, hget, List.getElem?_set_self (by omega)]
    rfl

/-! ## What is read from it -/

/-- The bytes at a distance, as far as they are there, are the copy. -/
theorem Holds.copied (h : Holds hasCrc history w) {d n : Nat} (hn : n ≤ d) (hd : d ≤ w.pos) :
    w.pos - d + n ≤ w.buffer.length ∧ (w.buffer.drop (w.pos - d)).take n = copied d n history := by
  have hpos := h.pos_le
  obtain ⟨front, ⟨hlength, rfl, -⟩, -⟩ := h.ends
  have htake : (w.buffer.take w.pos).length = w.pos := List.length_take_of_le (by omega)
  refine ⟨by omega, ?_⟩
  have hdrop : (front ++ w.buffer.take w.pos).length - d = front.length + (w.pos - d) := by
    rw [List.length_append, htake]
    omega
  rw [copied_of_le hn (by rw [List.length_append, htake]; omega), hdrop, List.drop_length_add_append, List.drop_take,
    List.take_take, min_eq_left (by omega)]

theorem Holds.getLastChar (h : Holds hasCrc history w) (hpos : 0 < w.pos) :
    ∃ front c, w.getLastChar = some c ∧ history = front ++ [c] := by
  have hle := h.pos_le
  obtain ⟨front, ⟨hlength, rfl, -⟩, -⟩ := h.ends
  have hlt : w.pos - 1 < w.buffer.length := by omega
  refine ⟨front ++ w.buffer.take (w.pos - 1), w.buffer[w.pos - 1], ?_, ?_⟩
  · unfold Window.getLastChar
    rw [if_neg (Nat.ne_of_gt hpos), List.getElem?_eq_getElem hlt]
  · have htake := List.take_add_one (l := w.buffer) (i := w.pos - 1)
    rw [Nat.sub_add_cancel hpos, List.getElem?_eq_getElem hlt] at htake
    rw [htake, List.append_assoc]
    rfl

theorem Holds.checksum (h : Holds hasCrc history w) :
    w.checksum = if hasCrc then some (.of history) else none := by
  obtain ⟨front, ⟨-, rfl, hcrc⟩, -⟩ := h.ends
  unfold Window.checksum
  rw [hcrc]
  cases hasCrc with
  | false => rfl
  | true => exact congrArg some (Adler32.of_append front _)

end Window

/-! ## What `InflateImpl` writes -/

/-- The fields of `InflateImpl` that writing touches: `output` is what it holds behind the `outpos` of the call. -/
structure Output where
  window : Window
  needed : Nat
  output : List UInt8

namespace Output

def addBytes (s : Output) (b : List UInt8) (p len : Nat) : Option Output :=
  (s.window.addBytes b p len).map fun window => ⟨window, s.needed - len, s.output ++ (b.drop p).take len⟩

def addByte (s : Output) (b : UInt8) : Option Output :=
  (s.window.addByte b).map fun window => ⟨window, s.needed - 1, s.output ++ [b]⟩

/-- The loop of `addDistOne`. -/
def addByteTimes (c : UInt8) : Nat → Output → Option Output
  | 0, s => some s
  | n + 1, s => (s.addByte c).bind (addByteTimes c n)

def addDistOne (s : Output) (n : Nat) : Option Output := s.window.getLastChar.bind fun c => addByteTimes c n s

def addDist (s : Output) (d len : Nat) : Option Output :=
  if s.window.pos < d then none else s.addBytes s.window.buffer (s.window.pos - d) len

/-- `rlen` in the states `Flat` and `DistOne`. -/
def part (s : Output) (len : Nat) : Nat := if len < s.needed then len else s.needed

/-- `rlen` in the state `Dist`. -/
def distLen (s : Output) (dist len : Nat) : Nat :=
  let rdist := if len < dist then len else dist
  if s.needed < rdist then s.needed else rdist

/-- The loop of the state `Dist`. `dist` is not zero, so that there are no more rounds than bytes. -/
def distLoop (dist : Nat) : Nat → Nat → Output → Option (Nat × Output)
  | 0, len, s => some (len, s)
  | rounds + 1, len, s =>
    if 0 < len ∧ 0 < s.needed then
      (s.addDist dist (s.distLen dist len)).bind (distLoop dist rounds (len - s.distLen dist len))
    else some (len, s)

end Output

/-! ## The states in which it writes -/

/-- What the bits stand for: a literal, a match, or a stored block. -/
inductive Item where
  | literal (b : UInt8)
  | copy (dist len : Nat)
  | flat (bytes : List UInt8)

/-- The states in which there is something to write, with what is left of it. -/
inductive State where
  | cdata
  | flat (bytes : List UInt8)
  | distOne (len : Nat)
  | dist (dist len : Nat)

structure Inflating where
  out : Output
  state : State
  items : List Item

namespace Inflating

/-- A round; `none` is what it throws. -/
def inflateLoop (s : Inflating) : Option (Bool × Inflating) :=
  match s.state with
  | .flat bytes =>
    (s.out.addBytes (bytes.take (s.out.part bytes.length)) 0 (s.out.part bytes.length)).map fun out =>
      let bytes := bytes.drop (s.out.part bytes.length)
      (0 < out.needed, ⟨out, if bytes.length = 0 then .cdata else .flat bytes, s.items⟩)
  | .distOne len =>
    (s.out.addDistOne (s.out.part len)).map fun out =>
      let len := len - s.out.part len
      (0 < out.needed, ⟨out, if len = 0 then .cdata else .distOne len, s.items⟩)
  | .dist dist len =>
    (Output.distLoop dist len len s.out).map fun r =>
      (0 < r.2.needed, ⟨r.2, if r.1 = 0 then .cdata else .dist dist r.1, s.items⟩)
  | .cdata =>
    match s.items with
    | [] => some (false, s)
    | .literal b :: items => (s.out.addByte b).map fun out => (0 < out.needed, ⟨out, .cdata, items⟩)
    | .copy dist len :: items =>
      if s.out.window.available < dist then none
      else some (true, ⟨s.out, if dist = 1 then .distOne len else .dist dist len, items⟩)
    | .flat bytes :: items => some (true, ⟨s.out, .flat bytes, items⟩)

def loop : Nat → Inflating → Option Inflating
  | 0, _ => none
  | fuel + 1, s => s.inflateLoop.bind fun r => if r.1 then loop fuel r.2 else some r.2

def new (hasCrc : Bool) (items : List Item) : Inflating := ⟨⟨.new hasCrc, 0, []⟩, .cdata, items⟩

/-- `readBytes` into `len` bytes: what is there then. -/
def readBytes (fuel : Nat) (s : Inflating) (len : Nat) : Option (List UInt8 × Inflating) :=
  let s := { s with out := ⟨s.out.window, len, []⟩ }
  (if 0 < len then loop fuel s else some s).map fun s => (s.out.output, s)

def calls (fuel : Nat) : List Nat → Inflating → Option (List (List UInt8) × Inflating)
  | [], s => some ([], s)
  | len :: lens, s =>
    (readBytes fuel s len).bind fun r => (calls fuel lens r.2).map fun rs => (r.1 :: rs.1, rs.2)

end Inflating

/-! ## What is meant -/

/-- The bytes of an item. A match refers to what is before it, and not too far. -/
def Item.text (history : List UInt8) : Item → Option (List UInt8)
  | .literal b => some [b]
  | .copy dist len => if 1 ≤ dist ∧ dist ≤ SIZE ∧ dist ≤ history.length then some (copied dist len history) else none
  | .flat bytes => if bytes.length ≤ SIZE then some bytes else none

/-- The text that items add to the one before them. -/
def expand : List UInt8 → List Item → Option (List UInt8)
  | _, [] => some []
  | history, i :: is =>
    (i.text history).bind fun text => (expand (history ++ text) is).map fun rest => text ++ rest

def pieces : List Nat → List UInt8 → List (List UInt8)
  | [], _ => []
  | len :: lens, text => text.take len :: pieces lens (text.drop len)

def State.items : State → List Item
  | .cdata => []
  | .flat bytes => [.flat bytes]
  | .distOne len => [.copy 1 len]
  | .dist d len => [.copy d len]

theorem expand_cons {history text : List UInt8} {i : Item} {is : List Item} :
    expand history (i :: is) = some text ↔
      ∃ front back, i.text history = some front ∧ expand (history ++ front) is = some back ∧ text = front ++ back := by
  rw [expand]
  simp only [Option.bind_eq_some_iff, Option.map_eq_some_iff, exists_and_left, @eq_comm _ text]

theorem text_copy {history text : List UInt8} {d n : Nat} :
    (Item.copy d n).text history = some text ↔
      (1 ≤ d ∧ d ≤ SIZE ∧ d ≤ history.length) ∧ copied d n history = text := by
  rw [Item.text]
  split <;> simp [*]

theorem text_flat {history bytes text : List UInt8} :
    (Item.flat bytes).text history = some text ↔ bytes.length ≤ SIZE ∧ bytes = text := by
  rw [Item.text]
  split <;> simp [*]

/-! ## Each write -/

/-- A write that adds a text to the output and to what the window holds. -/
structure Adds (hasCrc : Bool) (history : List UInt8) (s : Output) (text : List UInt8) (s' : Output) : Prop where
  needed : s'.needed = s.needed - text.length
  output : s'.output = s.output ++ text
  holds : s'.window.Holds hasCrc (history ++ text)

variable {hasCrc : Bool} {history text more : List UInt8} {s s' s'' : Output}

theorem Adds.nil (h : s.window.Holds hasCrc history) : Adds hasCrc history s [] s where
  needed := rfl
  output := (List.append_nil _).symm
  holds := by rwa [List.append_nil]

theorem Adds.trans (h : Adds hasCrc history s text s') (h' : Adds hasCrc (history ++ text) s' more s'') :
    Adds hasCrc history s (text ++ more) s'' where
  needed := by rw [h'.needed, h.needed, List.length_append, Nat.sub_sub]
  output := by rw [h'.output, h.output, List.append_assoc]
  holds := by
    rw [← List.append_assoc]
    exact h'.holds

namespace Output

theorem addBytes_spec (h : s.window.Holds hasCrc history) {b : List UInt8} {p len : Nat} (hlen : len ≤ SIZE)
    (hb : p + len ≤ b.length) : ∃ s', s.addBytes b p len = some s' ∧ Adds hasCrc history s ((b.drop p).take len) s' := by
  obtain ⟨window, hadd, hholds⟩ := h.addBytes hlen hb
  have htext : ((b.drop p).take len).length = len := List.length_take_of_le (by rw [List.length_drop]; omega)
  exact ⟨_, by rw [addBytes, hadd]; rfl, by rw [htext], rfl, hholds⟩

theorem addByte_spec (h : s.window.Holds hasCrc history) (b : UInt8) :
    ∃ s', s.addByte b = some s' ∧ Adds hasCrc history s [b] s' := by
  obtain ⟨window, hadd, hholds⟩ := h.addByte b
  exact ⟨_, by rw [addByte, hadd]; rfl, rfl, rfl, hholds⟩

theorem addByteTimes_spec (h : s.window.Holds hasCrc history) (c : UInt8) (n : Nat) :
    ∃ s', addByteTimes c n s = some s' ∧ Adds hasCrc history s (List.replicate n c) s' := by
  induction n generalizing s history with
  | zero => exact ⟨s, rfl, Adds.nil h⟩
  | succ n ih =>
    obtain ⟨s1, hadd, h1⟩ := addByte_spec h c
    obtain ⟨s', htimes, hend⟩ := ih h1.holds
    exact ⟨s', by rw [addByteTimes, hadd]; exact htimes, h1.trans hend⟩

theorem addDistOne_spec (h : s.window.Holds hasCrc history) (hback : 1 ≤ history.length) (n : Nat) :
    ∃ s', s.addDistOne n = some s' ∧ Adds hasCrc history s (copied 1 n history) s' := by
  have hpos : 0 < s.window.pos := h.le_available (by decide) hback
  obtain ⟨front, c, hlast, rfl⟩ := h.getLastChar hpos
  rw [copied_one, addDistOne, hlast]
  exact addByteTimes_spec h c n

theorem addDist_spec (h : s.window.Holds hasCrc history) {d n : Nat} (hn : n ≤ d) (hsize : d ≤ SIZE)
    (hback : d ≤ history.length) : ∃ s', s.addDist d n = some s' ∧ Adds hasCrc history s (copied d n history) s' := by
  have hpos : d ≤ s.window.pos := h.le_available hsize hback
  obtain ⟨hle, hcopied⟩ := h.copied hn hpos
  rw [addDist, if_neg (Nat.not_lt.2 hpos), ← hcopied]
  exact addBytes_spec h (hn.trans hsize) hle

theorem part_eq (s : Output) (len : Nat) : s.part len = min len s.needed := by
  unfold part
  split <;> omega

/-- The loop of a match copies no more at a time than its distance, and in the end as much as there is room for. -/
theorem distLoop_spec (h : s.window.Holds hasCrc history) {d len rounds : Nat} (hd : 1 ≤ d) (hsize : d ≤ SIZE)
    (hback : d ≤ history.length) (hrounds : len ≤ rounds) : ∃ s', distLoop d rounds len s = some (len - s.needed, s') ∧
      Adds hasCrc history s (copied d (min len s.needed) history) s' := by
  induction rounds generalizing s history len with
  | zero =>
    obtain rfl : len = 0 := Nat.le_zero.1 hrounds
    rw [Nat.zero_min, Nat.zero_sub]
    exact ⟨s, rfl, Adds.nil h⟩
  | succ rounds ih =>
    rw [distLoop]
    split
    next hmore =>
      have hrlen : 0 < s.distLen d len ∧ s.distLen d len ≤ d ∧ s.distLen d len ≤ min len s.needed := by grind [distLen]
      generalize s.distLen d len = rlen at hrlen ⊢
      obtain ⟨hpos, hled, hle⟩ := hrlen
      obtain ⟨s1, hadd, h1⟩ := addDist_spec h hled hsize hback
      obtain ⟨s', hloop, hend⟩ := @ih _ _ h1.holds (len - rlen) (by rw [List.length_append]; omega) (by omega)
      rw [h1.needed, length_copied] at hloop hend
      have hcopied := copied_add d rlen (min (len - rlen) (s.needed - rlen)) history
      rw [show rlen + min (len - rlen) (s.needed - rlen) = min len s.needed by omega] at hcopied
      refine ⟨s', ?_, hcopied ▸ h1.trans hend⟩
      rw [hadd, Option.bind_some, hloop, show len - rlen - (s.needed - rlen) = len - s.needed by omega]
    next hnone =>
      rw [show min len s.needed = 0 by omega, show len - s.needed = len by omega]
      exact ⟨s, rfl, Adds.nil h⟩

end Output

/-! ## Each round -/

namespace Inflating

/-- What is written next, by the items and by what is left of the one that was begun. -/
def Pending (hasCrc : Bool) (history text : List UInt8) (s : Inflating) : Prop :=
  s.out.window.Holds hasCrc history ∧ expand history (s.state.items ++ s.items) = some text

def weight (s : Inflating) : Nat := s.state.items.length + 2 * s.items.length

/-- A round writes a part of the text and leaves the rest, and goes on while there is room. -/
structure Stepped (hasCrc : Bool) (history text : List UInt8) (s : Inflating) (again : Bool) (s' : Inflating)
    (front back : List UInt8) : Prop where
  text_eq : text = front ++ back
  fits : front.length ≤ s.out.needed
  adds : Adds hasCrc history s.out front s'.out
  pending : Pending hasCrc (history ++ front) back s'
  weight_le : s'.weight ≤ s.weight
  goesOn : again = true → 0 < s'.out.needed ∧ s'.weight < s.weight
  stops : again = false → s'.out.needed = 0 ∨ back = []

def Steps (hasCrc : Bool) (history text : List UInt8) (s : Inflating) : Prop :=
  ∃ again s' front back, s.inflateLoop = some (again, s') ∧ Stepped hasCrc history text s again s' front back

variable {s : Inflating}

/-- A round that writes as much of an item of `m` bytes as there is room for. -/
theorem stepped_part {state : State} {front back rest : List UInt8} {i : Item} {m : Nat} {out : Output}
    (hi : s.state.items = [i]) (hadds : Adds hasCrc history s.out front out) (hfront : front.length = min m s.out.needed)
    (hback : expand (history ++ (front ++ rest)) s.items = some back)
    (hstate : m - s.out.needed = 0 ∧ state = .cdata ∧ rest = [] ∨
      ∃ j, m - s.out.needed ≠ 0 ∧ state.items = [j] ∧ j.text (history ++ front) = some rest) :
    Stepped hasCrc history (front ++ rest ++ back) s (0 < out.needed) ⟨out, state, s.items⟩ front (rest ++ back) := by
  have hneeded := hadds.needed
  rw [← List.append_assoc] at hback
  refine ⟨List.append_assoc _ _ _, by omega, hadds, ⟨hadds.holds, ?_⟩, ?_, fun hagain => ⟨of_decide_eq_true hagain, ?_⟩,
    fun hstop => .inl (by simpa using hstop)⟩
  · rcases hstate with ⟨-, rfl, rfl⟩ | ⟨j, -, hj, htext⟩
    · rwa [List.append_nil] at hback
    · show expand _ (state.items ++ s.items) = _
      rw [hj]
      exact expand_cons.2 ⟨rest, back, htext, hback, rfl⟩
  · refine Nat.add_le_add_right ?_ _
    rcases hstate with ⟨-, rfl, -⟩ | ⟨j, -, hj, -⟩
    · exact Nat.zero_le _
    · rw [hj, hi]
      exact Nat.le_refl _
  · have hmore := of_decide_eq_true hagain
    refine Nat.add_lt_add_right ?_ _
    rcases hstate with ⟨-, rfl, -⟩ | ⟨j, hleft, -⟩
    · rw [hi]
      exact Nat.one_pos
    · omega

/-- The round of a match, in either of its states. -/
theorem steps_copy {d len : Nat} (state : Nat → State) (h : Pending hasCrc history text s)
    (hi : s.state.items = [.copy d len]) (hitems : ∀ n, (state n).items = [.copy d n])
    (hround : 1 ≤ d ∧ d ≤ SIZE ∧ d ≤ history.length → ∃ out,
      Adds hasCrc history s.out (copied d (min len s.out.needed) history) out ∧ s.inflateLoop = some (decide (0 < out.needed),
        ⟨out, if len - s.out.needed = 0 then .cdata else state (len - s.out.needed), s.items⟩)) :
    Steps hasCrc history text s := by
  obtain ⟨hholds, hexpand⟩ := h
  rw [hi] at hexpand
  obtain ⟨all, back, hall, hback, rfl⟩ := expand_cons.1 hexpand
  obtain ⟨hd, rfl⟩ := text_copy.1 hall
  obtain ⟨out, hadds, hloop⟩ := hround hd
  have hsplit := copied_add d (min len s.out.needed) (len - s.out.needed) history
  rw [show min len s.out.needed + (len - s.out.needed) = len by omega] at hsplit
  rw [hsplit] at hback ⊢
  refine ⟨_, _, _, _, hloop, stepped_part hi hadds (length_copied _ _ _) hback ?_⟩
  by_cases hleft : len - s.out.needed = 0
  · exact .inl ⟨hleft, if_pos hleft, by rw [hleft]; rfl⟩
  · exact .inr ⟨_, hleft, by rw [if_neg hleft, hitems],
      text_copy.2 ⟨⟨hd.1, hd.2.1, by rw [List.length_append]; omega⟩, rfl⟩⟩

theorem steps_flat {bytes : List UInt8} (hstate : s.state = .flat bytes) (h : Pending hasCrc history text s) :
    Steps hasCrc history text s := by
  have hi : s.state.items = [.flat bytes] := by rw [hstate]; rfl
  obtain ⟨hholds, hexpand⟩ := h
  rw [hi] at hexpand
  obtain ⟨all, back, hall, hback, rfl⟩ := expand_cons.1 hexpand
  obtain ⟨hsize, rfl⟩ := text_flat.1 hall
  obtain ⟨k, hk⟩ : ∃ k, k = min bytes.length s.out.needed := ⟨_, rfl⟩
  have hlen : (bytes.take k).length = k := List.length_take_of_le (by omega)
  obtain ⟨out, hadd, hadds⟩ := @Output.addBytes_spec _ _ s.out hholds (bytes.take k) 0 k (by omega) (by omega)
  rw [List.drop_zero, List.take_of_length_le hlen.le] at hadds
  rw [← List.take_append_drop k bytes] at hback ⊢
  have hloop : s.inflateLoop = some (decide (0 < out.needed),
      ⟨out, if (bytes.drop k).length = 0 then .cdata else .flat (bytes.drop k), s.items⟩) := by
    rw [inflateLoop, hstate]
    simp only [Output.part_eq, ← hk, hadd]
    rfl
  have hdrop := @List.length_drop _ k bytes
  refine ⟨_, _, _, _, hloop, stepped_part hi hadds (hlen.trans hk) hback ?_⟩
  by_cases hleft : bytes.length - s.out.needed = 0
  · exact .inl ⟨hleft, if_pos (by omega), List.drop_of_length_le (by omega)⟩
  · exact .inr ⟨_, hleft, by rw [if_neg (by omega)]; rfl, text_flat.2 ⟨by omega, rfl⟩⟩

theorem steps_distOne {len : Nat} (hstate : s.state = .distOne len) (h : Pending hasCrc history text s) :
    Steps hasCrc history text s := by
  refine steps_copy State.distOne h (by rw [hstate]; rfl) (fun _ => rfl) fun hd => ?_
  obtain ⟨out, hadd, hadds⟩ := Output.addDistOne_spec h.1 hd.2.2 (min len s.out.needed)
  refine ⟨out, hadds, ?_⟩
  rw [inflateLoop, hstate]
  simp only [Output.part_eq, hadd]
  rw [show len - min len s.out.needed = len - s.out.needed by omega]
  rfl

theorem steps_dist {d len : Nat} (hstate : s.state = .dist d len) (h : Pending hasCrc history text s) :
    Steps hasCrc history text s := by
  refine steps_copy (State.dist d) h (by rw [hstate]; rfl) (fun _ => rfl) fun hd => ?_
  obtain ⟨out, hadd, hadds⟩ := Output.distLoop_spec h.1 hd.1 hd.2.1 hd.2.2 (Nat.le_refl len)
  refine ⟨out, hadds, ?_⟩
  rw [inflateLoop, hstate]
  simp only [hadd]
  rfl

/-- A match or a stored block begins: there is nothing to write yet. -/
theorem stepped_begin {i : Item} {items : List Item} {state : State} (hneeded : 0 < s.out.needed) (hstate : s.state = .cdata)
    (hitems : s.items = i :: items) (hi : state.items = [i]) (h : Pending hasCrc history text s) :
    Stepped hasCrc history text s true ⟨s.out, state, items⟩ [] text := by
  obtain ⟨hholds, hexpand⟩ := h
  rw [hstate, hitems] at hexpand
  have hweight : weight ⟨s.out, state, items⟩ < s.weight := by
    unfold weight
    rw [hstate, hitems, hi]
    show 1 + 2 * items.length < 0 + 2 * (items.length + 1)
    omega
  refine ⟨rfl, Nat.zero_le _, .nil hholds, ⟨?_, ?_⟩, hweight.le, fun _ => ⟨hneeded, hweight⟩, fun hstop => by cases hstop⟩
  · rwa [List.append_nil]
  · show expand _ (state.items ++ items) = _
    rw [List.append_nil, hi]
    exact hexpand

theorem steps_cdata (hneeded : 0 < s.out.needed) (hstate : s.state = .cdata) (h : Pending hasCrc history text s) :
    Steps hasCrc history text s := by
  have hloop := inflateLoop.eq_def s
  rw [hstate] at hloop
  rcases hitems : s.items with _ | ⟨i, items⟩
  · rw [hitems] at hloop
    have hexpand := h.2
    rw [hstate, hitems] at hexpand
    obtain rfl : [] = text := Option.some.inj hexpand
    refine ⟨_, _, [], [], hloop, rfl, Nat.zero_le _, .nil h.1, ?_, Nat.le_refl _, (by rintro ⟨⟩), fun _ => .inr rfl⟩
    rwa [List.append_nil]
  · rw [hitems] at hloop
    have hexpand := h.2
    rw [hstate, hitems] at hexpand
    obtain ⟨front, back, hfront, hback, htext⟩ := expand_cons.1 hexpand
    cases i with
    | literal b =>
      cases hfront
      obtain ⟨out, hadd, hadds⟩ := Output.addByte_spec h.1 b
      dsimp only at hloop
      rw [hadd] at hloop
      have hweight : weight ⟨out, .cdata, items⟩ < s.weight := by
        unfold weight
        rw [hstate, hitems]
        show 0 + 2 * items.length < 0 + 2 * (items.length + 1)
        omega
      exact ⟨_, _, [b], back, hloop, htext, hneeded, hadds, ⟨hadds.holds, hback⟩, hweight.le,
        fun hagain => ⟨of_decide_eq_true hagain, hweight⟩, fun hstop => .inl (by simpa using hstop)⟩
    | copy d len =>
      obtain ⟨⟨-, hsize, hle⟩, -⟩ := text_copy.1 hfront
      dsimp only at hloop
      rw [if_neg (Nat.not_lt.2 (h.1.le_available hsize hle))] at hloop
      refine ⟨_, _, _, _, hloop, stepped_begin hneeded hstate hitems ?_ h⟩
      split
      next hone => rw [hone]; rfl
      next => rfl
    | flat bytes => exact ⟨_, _, _, _, hloop, stepped_begin hneeded hstate hitems rfl h⟩

theorem steps (hneeded : 0 < s.out.needed) (h : Pending hasCrc history text s) : Steps hasCrc history text s := by
  cases hstate : s.state with
  | cdata => exact steps_cdata hneeded hstate h
  | flat bytes => exact steps_flat hstate h
  | distOne len => exact steps_distOne hstate h
  | dist d len => exact steps_dist hstate h

/-! ## Runs -/

/-- The rounds of a call write what there is room for. -/
theorem loop_spec {fuel : Nat} (hneeded : 0 < s.out.needed) (h : Pending hasCrc history text s) (hfuel : s.weight < fuel) :
    ∃ s', loop fuel s = some s' ∧ Adds hasCrc history s.out (text.take s.out.needed) s'.out ∧
      Pending hasCrc (history ++ text.take s.out.needed) (text.drop s.out.needed) s' ∧ s'.weight ≤ s.weight := by
  induction fuel generalizing s history text with
  | zero => omega
  | succ fuel ih =>
    obtain ⟨again, s1, front, back, hround, rfl, hfits, hadds, hpending, hweight, hgoesOn, hstops⟩ := steps hneeded h
    have hsum := hadds.needed
    have htake : (front ++ back).take s.out.needed = front ++ back.take s1.out.needed := by
      rw [hsum, List.take_append, List.take_of_length_le hfits]
    have hdrop : (front ++ back).drop s.out.needed = back.drop s1.out.needed := by
      rw [hsum, List.drop_append, List.drop_of_length_le hfits, List.nil_append]
    rw [loop, hround, Option.bind_some, htake, hdrop]
    cases again with
    | true =>
      obtain ⟨hmore, hless⟩ := hgoesOn rfl
      obtain ⟨s', hloop, hadds', hpending', hweight'⟩ := ih hmore hpending (by omega)
      rw [List.append_assoc] at hpending'
      exact ⟨s', hloop, hadds.trans hadds', hpending', hweight'.trans hweight⟩
    | false =>
      have hnone : back.take s1.out.needed = [] ∧ back.drop s1.out.needed = back := by
        rcases hstops rfl with hzero | rfl
        · rw [hzero]
          exact ⟨rfl, rfl⟩
        · exact ⟨List.take_nil, List.drop_nil⟩
      rw [hnone.1, hnone.2, List.append_nil]
      exact ⟨s1, rfl, hadds, hpending, hweight⟩

theorem calls_spec {lens : List Nat} {fuel : Nat} (h : Pending hasCrc history text s) (hfuel : s.weight < fuel) :
    ∃ s', calls fuel lens s = some (pieces lens text, s') ∧ s'.out.window.Holds hasCrc (history ++ text.take lens.sum) := by
  induction lens generalizing s history text with
  | nil => exact ⟨s, rfl, by rw [List.sum_nil, List.take_zero, List.append_nil]; exact h.1⟩
  | cons len lens ih =>
    have hread : ∃ s1, readBytes fuel s len = some (text.take len, s1) ∧
        Pending hasCrc (history ++ text.take len) (text.drop len) s1 ∧ s1.weight ≤ s.weight := by
      rw [readBytes]
      split
      next hlen =>
        obtain ⟨s1, hloop, hadds, hend⟩ := @loop_spec hasCrc history text ⟨⟨s.out.window, len, []⟩, s.state, s.items⟩ fuel hlen h hfuel
        exact ⟨s1, by rw [hloop, Option.map_some, hadds.output]; rfl, hend⟩
      next hlen =>
        obtain rfl : len = 0 := by omega
        exact ⟨_, rfl, by rw [List.take_zero, List.append_nil]; exact h, Nat.le_refl _⟩
    obtain ⟨s1, hread, h1, hweight⟩ := hread
    obtain ⟨s', hcalls, hholds⟩ := ih h1 (by omega)
    rw [List.append_assoc, ← List.take_add] at hholds
    refine ⟨s', ?_, hholds⟩
    rw [calls, hread, Option.bind_some, hcalls]
    rfl

/-- Whatever literals, matches and stored blocks the bits stand for, and in whatever buffers they are asked for, the calls give
the text piece by piece, no access is out of bounds, and the checksum is the one of all that was given. -/
theorem calls_pieces (hasCrc : Bool) (lens : List Nat) {items : List Item} {text : List UInt8} (h : expand [] items = some text) :
    ∃ bound, ∀ fuel ≥ bound, ∃ s, calls fuel lens (new hasCrc items) = some (pieces lens text, s) ∧
      s.out.window.checksum = if hasCrc then some (.of (text.take lens.sum)) else none := by
  refine ⟨(new hasCrc items).weight + 1, fun fuel hfuel => ?_⟩
  obtain ⟨s, hcalls, hholds⟩ := @calls_spec hasCrc [] text (new hasCrc items) lens fuel ⟨Window.holds_new hasCrc, h⟩ hfuel
  exact ⟨s, hcalls, hholds.checksum⟩

/-- `calls_pieces` at a match that reaches into itself, and is cut by the end of a buffer. -/
theorem calls_pieces_match : ∃ bound, ∀ fuel ≥ bound, ∃ s,
    calls fuel [4, 3] (new true [.literal 97, .literal 98, .copy 2 5]) = some ([[97, 98, 97, 98], [97, 98, 97]], s) ∧
      s.out.window.checksum = some (.of [97, 98, 97, 98, 97, 98, 97]) :=
  calls_pieces true [4, 3]
    (show expand [] [.literal 97, .literal 98, .copy 2 5] = some [97, 98, 97, 98, 97, 98, 97] from rfl)

end Inflating

end EvilHaxe.Zip
