/-
What a compilation writes on the pipe of `create_pipe`, and how the client of `do_connect` prints it. A line that begins
with the byte 1 goes to the standard output, with bytes 1 for the newlines in it; a line that is the byte 2 marks an
error; every other line goes to the standard error.
-/
import EvilHaxe.Lib.Lines

namespace EvilHaxe.Server

open Lib

abbrev Bytes := List UInt8

def newline : UInt8 := 10
def outByte : UInt8 := 1
def errorByte : UInt8 := 2

/-- `ExtString.String.nsplit s sep` on a separator of one byte: empty parts are kept. Of the empty string there is one
part, or none. -/
structure KeepsEmptyParts (nsplit : Bytes → UInt8 → List Bytes) : Prop where
  split : ∀ s sep, s ≠ [] → nsplit s sep = s.splitOn sep
  empty : ∀ sep, nsplit [] sep = [] ∨ nsplit [] sep = [[]]

variable (nsplit : Bytes → UInt8 → List Bytes)

/-! ## The server -/

inductive Written where
  | writeOut (s : Bytes)
  | writeErr (s : Bytes)
  /-- `flush` of a compilation with errors. -/
  | errorMarker
deriving DecidableEq

def Written.send : Written → Bytes
  | .writeOut s => outByte :: [outByte].intercalate (nsplit s newline) ++ [newline]
  | .writeErr s => s
  | .errorMarker => [errorByte, newline]

/-! ## The client -/

structure Client where
  buf : Bytes
  stdout : Bytes
  stderr : Bytes
  hasError : Bool

namespace Client

def print (c : Client) (line : Bytes) : Client :=
  match line.headD 0 with
  | 1 => { c with stdout := c.stdout ++ [newline].intercalate (nsplit line outByte).tail }
  | 2 => { c with hasError := true }
  | _ => { c with stderr := c.stderr ++ line ++ [newline] }

def process (c : Client) : Client :=
  let lines := nsplit c.buf newline
  let lines := match lines.reverse with
    | [] :: l => l.reverse
    | _ => lines
  lines.foldl (print nsplit) c

/-- `loop`, given what each `recv` returns. -/
def loop : List Bytes → Client → Client
  | [], c => c
  | b :: bs, c =>
    let c := { c with buf := c.buf ++ b }
    if b.length > 0 then
      let c := if b.getLast? = some newline then { c.process nsplit with buf := [] } else c
      loop bs c
    else c

end Client

/-- The client after the end of the connection; its exit code is 1 if `hasError`. -/
def doConnect (recvs : List Bytes) : Client :=
  (Client.loop nsplit recvs { buf := [], stdout := [], stderr := [], hasError := false }).process nsplit

/-! ## Lines -/

namespace Written

def out : Written → Bytes
  | writeOut s => s
  | _ => []

def err : Written → Bytes
  | writeErr s => s
  | _ => []

/-- What a compilation writes: no control bytes, and on the standard error whole lines. -/
def Clean : Written → Prop
  | writeOut s => outByte ∉ s ∧ errorByte ∉ s
  | writeErr s => outByte ∉ s ∧ errorByte ∉ s ∧ s.getLast? = some newline
  | errorMarker => True

end Written

namespace Client

def printAll (c : Client) (lines : List Bytes) : Client := lines.foldl (print nsplit) c

def clear (c : Client) : Client := { c with buf := [] }

theorem print_clear (c : Client) (line : Bytes) : (c.print nsplit line).clear = c.clear.print nsplit line := by
  unfold print
  split <;> rfl

theorem printAll_clear (c : Client) (lines : List Bytes) :
    (c.printAll nsplit lines).clear = c.clear.printAll nsplit lines := by
  induction lines generalizing c with
  | nil => rfl
  | cons line lines ih =>
    rw [printAll, printAll, List.foldl_cons, List.foldl_cons, ← print_clear]
    exact ih _

theorem printAll_append (c : Client) (ls ls' : List Bytes) :
    c.printAll nsplit (ls ++ ls') = (c.printAll nsplit ls).printAll nsplit ls' :=
  List.foldl_append

variable {nsplit}

/-- A buffer of whole lines is printed line by line. -/
theorem process_lines (h : KeepsEmptyParts nsplit) {c : Client} {ls : List Bytes} (hls : ∀ l ∈ ls, newline ∉ l)
    (hbuf : c.buf = unlines newline ls) : c.process nsplit = c.printAll nsplit ls := by
  unfold process
  cases ls with
  | nil =>
    rw [hbuf, unlines, List.flatMap_nil]
    rcases h.empty newline with he | he <;> rw [he] <;> rfl
  | cons l ls =>
    have hne : c.buf ≠ [] := by simp [hbuf, unlines]
    rw [h.split _ _ hne, hbuf, splitOn_unlines hls]
    simp [printAll]

/-- The loop, and the last `process`: every line is printed once, however the bytes come. -/
theorem loop_lines (h : KeepsEmptyParts nsplit) {recvs : List Bytes} (hne : ∀ b ∈ recvs, b ≠ []) :
    ∀ (c : Client) (ls : List Bytes), (∀ l ∈ ls, newline ∉ l) → c.buf ++ recvs.flatten = unlines newline ls →
      ((c.loop nsplit recvs).process nsplit).clear = c.clear.printAll nsplit ls := by
  induction recvs with
  | nil =>
    intro c ls hls hbuf
    rw [loop, process_lines h hls (by simpa using hbuf), printAll_clear]
  | cons b bs ih =>
    intro c ls hls hbuf
    have hb : b ≠ [] := hne b List.mem_cons_self
    have hbs := fun b' hb' => hne b' (List.mem_cons_of_mem _ hb')
    rw [List.flatten_cons, ← List.append_assoc] at hbuf
    rw [loop]
    dsimp only
    rw [if_pos (List.length_pos_iff.mpr hb)]
    split
    · -- the buffer holds whole lines, and so does what is still to come
      rename_i hlast
      have hend : (c.buf ++ b).getLast? = some newline := by rw [List.getLast?_append, hlast]; rfl
      obtain ⟨ls1, h1, hls1⟩ := exists_unlines (.inr hend)
      obtain ⟨ls2, h2, hls2⟩ := exists_unlines (suffix_unlines hbuf)
      have hsplit : ls = ls1 ++ ls2 := by
        refine unlines_injective hls ?_ ?_
        · rintro l hl
          rcases List.mem_append.mp hl with hl | hl
          · exact hls1 l hl
          · exact hls2 l hl
        · rw [unlines_append, ← h1, ← h2, hbuf]
      refine (ih hbs _ ls2 hls2 ?_).trans ?_
      · exact h2
      rw [hsplit, printAll_append, process_lines h hls1 h1]
      exact congrArg (printAll nsplit · ls2) (printAll_clear nsplit _ ls1)
    · exact ih hbs _ ls hls hbuf

end Client

/-! ## Messages -/

namespace Written

variable {nsplit}

/-- What the client makes of a message. -/
def shown (w : Written) (c : Client) : Client where
  buf := c.buf
  stdout := c.stdout ++ w.out
  stderr := c.stderr ++ w.err
  hasError := c.hasError || match w with
    | errorMarker => true
    | _ => false

/-- The bytes 1 in a line of the standard output are the newlines of the text. -/
theorem text_of_parts (h : KeepsEmptyParts nsplit) {s : Bytes} (hs : outByte ∉ s) :
    [newline].intercalate (([outByte].intercalate (nsplit s newline)).splitOn outByte) = s := by
  by_cases hnil : s = []
  · subst hnil
    rcases h.empty newline with he | he <;> rw [he] <;> rfl
  · rw [h.split _ _ hnil, List.splitOn_intercalate, List.intercalate_splitOn]
    · intro l hl hmem
      refine hs ?_
      have hjoin : [newline].intercalate (s.splitOn newline) = s := List.intercalate_splitOn newline
      rw [← hjoin]
      exact mem_intercalate_of_mem hl hmem
    · exact List.splitOn_ne_nil _ _

theorem parts_newline (h : KeepsEmptyParts nsplit) {s part : Bytes} (hpart : part ∈ nsplit s newline) :
    newline ∉ part := by
  by_cases hnil : s = []
  · subst hnil
    intro hm
    rcases h.empty newline with he | he <;> rw [he] at hpart
    · cases hpart
    · obtain rfl := List.mem_singleton.mp hpart
      cases hm
  · rw [h.split _ _ hnil] at hpart
    exact not_mem_of_mem_splitOn hpart

theorem print_out (h : KeepsEmptyParts nsplit) {s : Bytes} (hs : outByte ∉ s) (c : Client) :
    c.print nsplit (outByte :: [outByte].intercalate (nsplit s newline)) = { c with stdout := c.stdout ++ s } := by
  have hline : ([] ++ outByte :: [outByte].intercalate (nsplit s newline)).splitOn outByte =
      [] :: ([outByte].intercalate (nsplit s newline)).splitOn outByte :=
    List.splitOn_append_cons_self_of_not_mem List.not_mem_nil _
  rw [List.nil_append] at hline
  show ({ c with stdout := _ } : Client) = _
  rw [h.split _ _ (List.cons_ne_nil _ _), hline, List.tail_cons, text_of_parts h hs]

theorem print_err {c : Client} {l : Bytes} (h1 : outByte ∉ l) (h2 : errorByte ∉ l) :
    c.print nsplit l = { c with stderr := c.stderr ++ l ++ [newline] } := by
  have hmem : l.headD 0 = 0 ∨ l.headD 0 ∈ l := by
    cases l with
    | nil => exact .inl rfl
    | cons b l => exact .inr List.mem_cons_self
  unfold Client.print
  split
  · rename_i heq
    rcases hmem with h0 | hm
    · rw [heq] at h0
      cases h0
    · rw [heq] at hm
      exact absurd hm h1
  · rename_i heq
    rcases hmem with h0 | hm
    · rw [heq] at h0
      cases h0
    · rw [heq] at hm
      exact absurd hm h2
  · rfl

/-- The lines of the standard error are printed as they are. -/
theorem printAll_err {ls : List Bytes} (h : outByte ∉ unlines newline ls ∧ errorByte ∉ unlines newline ls) (c : Client) :
    c.printAll nsplit ls = { c with stderr := c.stderr ++ unlines newline ls } := by
  induction ls generalizing c with
  | nil => simp [Client.printAll, unlines]
  | cons l ls ih =>
    rw [unlines, List.flatMap_cons] at h
    have h1 : outByte ∉ l := fun hm => h.1 (by simp [hm])
    have h2 : errorByte ∉ l := fun hm => h.2 (by simp [hm])
    rw [Client.printAll, List.foldl_cons, print_err h1 h2]
    refine (ih ⟨fun hm => h.1 (List.mem_append_right _ hm), fun hm => h.2 (List.mem_append_right _ hm)⟩ _).trans ?_
    simp [unlines]

/-- A message is lines, and the client prints them as the message. -/
theorem lines_of_send (h : KeepsEmptyParts nsplit) {w : Written} (hw : w.Clean) :
    ∃ ls, w.send nsplit = unlines newline ls ∧ (∀ l ∈ ls, newline ∉ l) ∧
      ∀ c : Client, c.printAll nsplit ls = w.shown c := by
  cases w with
  | writeOut s =>
    refine ⟨[outByte :: [outByte].intercalate (nsplit s newline)], by simp [send, unlines], ?_, fun c => ?_⟩
    · intro l hl hmem
      obtain rfl := List.mem_singleton.mp hl
      rcases List.mem_cons.mp hmem with hm | hm
      · cases hm
      · rcases mem_of_mem_intercalate hm with hm | ⟨part, hpart, hm⟩
        · cases hm
        · exact parts_newline h hpart hm
    · rw [Client.printAll, List.foldl_cons, List.foldl_nil, print_out h hw.1]
      simp [shown, out, err]
  | writeErr s =>
    obtain ⟨ls, hls, hno⟩ := exists_unlines (.inr hw.2.2)
    refine ⟨ls, hls, hno, fun c => ?_⟩
    rw [printAll_err ⟨hls ▸ hw.1, hls ▸ hw.2.1⟩, ← hls]
    simp [shown, out, err]
  | errorMarker =>
    refine ⟨[[errorByte]], rfl, ?_, fun c => ?_⟩
    · intro l hl hmem
      obtain rfl := List.mem_singleton.mp hl
      cases List.mem_singleton.mp hmem
    · rw [Client.printAll, List.foldl_cons, List.foldl_nil]
      simp [shown, out, err, Client.print, errorByte]

theorem lines_of_sends (h : KeepsEmptyParts nsplit) {ws : List Written} (hws : ∀ w ∈ ws, w.Clean) :
    ∃ ls, ws.flatMap (send nsplit) = unlines newline ls ∧ (∀ l ∈ ls, newline ∉ l) ∧
      ∀ c : Client, c.printAll nsplit ls = ws.foldl (fun c w => w.shown c) c := by
  induction ws with
  | nil => exact ⟨[], rfl, (fun _ hl => nomatch hl), fun _ => rfl⟩
  | cons w ws ih =>
    obtain ⟨ls1, h1, hno1, hp1⟩ := lines_of_send h (hws w List.mem_cons_self)
    obtain ⟨ls2, h2, hno2, hp2⟩ := ih fun w' hw' => hws w' (List.mem_cons_of_mem _ hw')
    refine ⟨ls1 ++ ls2, by rw [List.flatMap_cons, h1, h2, unlines_append], ?_, fun c => ?_⟩
    · intro l hl
      rcases List.mem_append.mp hl with hl | hl
      · exact hno1 l hl
      · exact hno2 l hl
    · rw [Client.printAll_append, hp1, hp2, List.foldl_cons]

theorem shown_all (ws : List Written) (c : Client) :
    ws.foldl (fun c w => w.shown c) c =
      ⟨c.buf, c.stdout ++ ws.flatMap out, c.stderr ++ ws.flatMap err, c.hasError || decide (errorMarker ∈ ws)⟩ := by
  induction ws generalizing c with
  | nil => simp
  | cons w ws ih =>
    rw [List.foldl_cons, ih]
    cases w <;> simp [shown, out, err]

end Written

/-- Whatever a compilation writes and however the socket splits it, the client shows the texts of the standard output and
of the standard error, and an error if there was a mark. -/
theorem client_shows (h : KeepsEmptyParts nsplit) (ws : List Written) (hws : ∀ w ∈ ws, w.Clean) (recvs : List Bytes)
    (hne : ∀ b ∈ recvs, 1 ≤ b.length ∧ b.length ≤ 1024) (hrecvs : recvs.flatten = ws.flatMap (Written.send nsplit)) :
    (doConnect nsplit recvs).stdout = ws.flatMap Written.out ∧
      (doConnect nsplit recvs).stderr = ws.flatMap Written.err ∧
      ((doConnect nsplit recvs).hasError = true ↔ .errorMarker ∈ ws) := by
  obtain ⟨ls, hsend, hno, hprint⟩ := Written.lines_of_sends h hws
  have hne' : ∀ b ∈ recvs, b ≠ [] := fun b hb => List.length_pos_iff.mp (hne b hb).1
  have hloop := Client.loop_lines h hne' ⟨[], [], [], false⟩ ls hno (hrecvs.trans hsend)
  rw [hprint, Written.shown_all] at hloop
  have hshown : (doConnect nsplit recvs).clear = ⟨[], ws.flatMap Written.out, ws.flatMap Written.err,
      decide (.errorMarker ∈ ws)⟩ := by
    simpa [Client.clear, doConnect] using hloop
  refine ⟨congrArg Client.stdout hshown, congrArg Client.stderr hshown, ?_⟩
  rw [show (doConnect nsplit recvs).hasError = decide (.errorMarker ∈ ws) from congrArg Client.hasError hshown]
  exact decide_eq_true_iff

def extNsplit (s : Bytes) (sep : UInt8) : List Bytes := if s = [] then [] else s.splitOn sep

theorem extNsplit_keepsEmptyParts : KeepsEmptyParts extNsplit where
  split _ _ h := if_neg h
  empty _ := .inl rfl

/-- The text `a`, newline, `b`, the error line `w`, and a mark, in four pieces. -/
theorem client_shows_pieces :
    (doConnect extNsplit [[1, 97], [1, 98, 10, 119], [10, 2], [10]]).stdout = [97, 10, 98] ∧
      (doConnect extNsplit [[1, 97], [1, 98, 10, 119], [10, 2], [10]]).stderr = [119, 10] ∧
      (doConnect extNsplit [[1, 97], [1, 98, 10, 119], [10, 2], [10]]).hasError = true := by
  have h := client_shows extNsplit extNsplit_keepsEmptyParts [.writeOut [97, 10, 98], .writeErr [119, 10], .errorMarker]
    (by simp [Written.Clean, outByte, errorByte, newline]) [[1, 97], [1, 98, 10, 119], [10, 2], [10]] (by decide)
    (by decide)
  exact ⟨h.1, h.2.1, h.2.2.mpr (by decide)⟩

end EvilHaxe.Server
