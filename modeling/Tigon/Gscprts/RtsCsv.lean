import Tigon.Lib.CString
import Tigon.Lib.Separator

/-!
# Lines with separated values

A source with lines of values is read from files or from a socket.  `csv_read_tuple` takes the next
line from a file, and `csv_read_socket` takes it from the socket.  Both put it in the same buffer,
and cut it into fields there.  What they hand on are the addresses of the fields.

The loops that cut the line do the same.  But only the file's side takes the line end away
afterwards: from a socket, the last field of each line comes with it.

* `splitSocket_eq` — the two loops do the same.
* `handsFile_iff` — when the fields from files are those of the lines.
* `same_iff` — **when those from files and from the socket both are.**
-/

set_option autoImplicit false

namespace Tigon.Gscprts.RtsCsv

open CString Memory Function List

/-! ## The line buffer -/

/-- `CSVMAXLINE` -/
def csvmaxline : Nat := 1000000

/-- `CSVELEMENTS` -/
def csvelements : Nat := 1000

def newline : UInt8 := 10

def carriageReturn : UInt8 := 13

abbrev Buffer := Nat → UInt8

/-- A packet, as it is handed to `rts_fta_process_packet`: the buffer, and where the fields are in
it. -/
structure Packet where
  line : Buffer
  fields : List Nat

/-- The inner loop of both: the end of a field. -/
def fieldEnd (csvdel : UInt8) (line : Buffer) : Nat → Nat → Nat
  | 0, i => i
  | n + 1, i => if line i ≠ 0 ∧ line i ≠ csvdel then fieldEnd csvdel line n (i + 1) else i

/-- The splitting loop of `csv_read_tuple`, for as many fields as there is room for. -/
def splitTuple (csvdel : UInt8) : Nat → Buffer → Nat → List Nat → Buffer × Nat × List Nat
  | 0, line, i, fields => (line, i, fields)
  | n + 1, line, i, fields =>
    if i < csvmaxline ∧ line i ≠ 0 then
      let j := fieldEnd csvdel line csvmaxline i
      if line j ≠ 0 then splitTuple csvdel n (update line j 0) (j + 1) (fields ++ [i])
      else splitTuple csvdel n line j (fields ++ [i])
    else (line, i, fields)

/-- The splitting loop of `csv_read_socket`. -/
def splitSocket (csvdel : UInt8) : Nat → Bool → Buffer → Nat → List Nat → Buffer × List Nat
  | 0, _, line, _, fields => (line, fields)
  | n + 1, done, line, i, fields =>
    if done = false ∧ i < csvmaxline ∧ line i ≠ 0 then
      let j := fieldEnd csvdel line csvmaxline i
      splitSocket csvdel n (decide (line j = 0)) (update line j 0) (j + 1) (fields ++ [i])
    else (line, fields)

def isEol (c : UInt8) : Bool := c == newline || c == carriageReturn

/-- Get rid of trailing `\n` and `\r`. -/
def stripEol : Buffer → Nat → Buffer
  | line, 0 => line
  | line, i + 1 => if isEol (line i) then stripEol (update line i 0) i else line

/-! ## The file path -/

/-- The characters that `fgets` takes: up to the first line end, and no more than there is room
for. -/
def fgetsChars : Nat → List UInt8 → List UInt8 × List UInt8
  | 0, s => ([], s)
  | _ + 1, [] => ([], [])
  | n + 1, c :: s =>
    if c = newline then ([c], s)
    else
      let r := fgetsChars n s
      (c :: r.1, r.2)

def fgets (buffer : Buffer) (size : Nat) (pd : List UInt8) : Option (Buffer × List UInt8) :=
  if pd = [] then none
  else
    let r := fgetsChars (size - 1) pd
    some (store buffer 0 (r.1 ++ [0]), r.2)

/-- What is left of the open file, the files after it, and the buffer. -/
structure FileState where
  pd : List UInt8
  files : List (List UInt8)
  line : Buffer

/-- The loop around `fgets` and `next_file`.  After the last file the process waits. -/
def nextLine (line : Buffer) (pd : List UInt8) : List (List UInt8) → Option FileState
  | [] => (fgets line csvmaxline pd).map fun r ↦ ⟨r.2, [], r.1⟩
  | file :: files =>
    match fgets line csvmaxline pd with
    | some (line, pd) => some ⟨pd, file :: files, line⟩
    | none => nextLine line file files

def csvReadTuple (csvdel : UInt8) (s : FileState) : Option (Packet × FileState) :=
  (nextLine s.line s.pd s.files).map fun s ↦
    let r := splitTuple csvdel csvelements s.line 0 []
    let line := stripEol r.1 r.2.1
    (⟨line, r.2.2⟩, { s with line := line })

/-- The packets of so many calls. -/
def filePackets (csvdel : UInt8) : Nat → FileState → List Packet
  | 0, _ => []
  | n + 1, s =>
    match csvReadTuple csvdel s with
    | none => []
    | some (packet, s) => packet :: filePackets csvdel n s

/-! ## The socket path -/

/-- The loop of `gs_read_line`, with room for so many bytes more.  There is no line if the socket is
closed. -/
def readLoop : Nat → Buffer → Nat → List UInt8 → Option (Buffer × Nat × List UInt8)
  | 0, buffer, used, stream => some (buffer, used, stream)
  | n + 1, buffer, used, stream =>
    if used = 0 ∨ buffer (used - 1) ≠ newline then
      match stream with
      | [] => none
      | c :: stream => readLoop n (update buffer used c) (used + 1) stream
    else some (buffer, used, stream)

def gsReadLine (buffer : Buffer) (length : Nat) (stream : List UInt8) :
    Option (Buffer × List UInt8) :=
  (readLoop (length - 1) buffer 0 stream).map fun r ↦ (update r.1 r.2.1 0, r.2.2)

/-- What is still to come from the socket, the buffer, and how much of it is used by bytes carried
over. -/
structure SocketState where
  stream : List UInt8
  line : Buffer
  lineend : UInt32

/-- `x` is the variable without a value. -/
def csvReadSocket (csvdel : UInt8) (x : UInt32) (s : SocketState) : Option (Packet × SocketState) :=
  (gsReadLine s.line (csvmaxline - 1) s.stream).map fun r ↦
    let split := splitSocket csvdel csvelements false r.1 0 []
    let line := split.1
    let carried :=
      if s.lineend > x + 1 then
        let rest := s.lineend - x - 1
        (store line 0 (load line (x + 1).toNat rest.toNat), rest)
      else (line, 0)
    (⟨line, split.2⟩, ⟨r.2, update carried.1 carried.2.toNat 0, carried.2⟩)

/-- The packets of calls.  A call that finds nothing to read in time hands on nothing; the others
are given their `x`. -/
def socketPackets (csvdel : UInt8) : List (Option UInt32) → SocketState → List Packet
  | [], _ => []
  | none :: polls, s => socketPackets csvdel polls s
  | some x :: polls, s =>
    match csvReadSocket csvdel x s with
    | none => []
    | some (packet, s) => packet :: socketPackets csvdel polls s

/-! ## Lines -/

/-- A line without the newline at its end.  It fits the buffer. -/
structure Line where
  text : List UInt8
  zero_notMem : 0 ∉ text
  newline_notMem : newline ∉ text
  length_lt : (text ++ [newline]).length < csvmaxline - 1

/-- The line's end may be a carriage return and a newline. -/
def Line.crlf (l : Line) : Bool := l.text.getLast? == some carriageReturn

def Line.content (l : Line) : List UInt8 := if l.crlf then l.text.dropLast else l.text

def Line.ending (l : Line) : List UInt8 := if l.crlf then [carriageReturn, newline] else [newline]

/-- The fields of a line. -/
def Line.fields (csvdel : UInt8) (l : Line) : List (List UInt8) := l.content.splitOn csvdel

/-- Lines in files, with the character between their fields. -/
structure Input where
  csvdel : UInt8
  csvdel_ne_zero : csvdel ≠ 0
  csvdel_ne_eol : isEol csvdel = false
  files : List (List Line)
  length_fields : ∀ l ∈ files.flatten, (l.fields csvdel).length ≤ csvelements

def Line.bytes (l : Line) : List UInt8 := l.text ++ [newline]

/-- The first file is not open yet. -/
def Input.fileState (input : Input) : FileState :=
  ⟨[], input.files.map (flatMap Line.bytes), fun _ ↦ 0⟩

def Input.socketState (input : Input) : SocketState :=
  ⟨input.files.flatten.flatMap Line.bytes, fun _ ↦ 0, 0⟩

/-- The packets' fields are strings within the buffer, and they are those. -/
def Hands (packets : List Packet) (records : List (List (List UInt8))) : Prop :=
  List.Forall₂ (fun packet fields ↦ List.Forall₂ (StringAt csvmaxline packet.line) packet.fields
    fields) packets records

/-- One packet for each line, with the line's fields, however many calls there are. -/
def HandsFile (input : Input) : Prop :=
  ∀ n, Hands (filePackets input.csvdel n input.fileState)
    ((input.files.flatten.map (Line.fields input.csvdel)).take n)

def HandsSocket (input : Input) : Prop :=
  ∀ polls : List (Option UInt32), Hands (socketPackets input.csvdel polls input.socketState)
    ((input.files.flatten.map (Line.fields input.csvdel)).take (polls.countP Option.isSome))

/-- Files and a socket with the same lines hand on the same packets: those of the lines. -/
def Same (input : Input) : Prop := HandsFile input ∧ HandsSocket input

/-! ## Cutting the line -/

section

variable {csvdel : UInt8} {line : Buffer} {n i : Nat} {fields : List Nat}

theorem fieldEnd_eq {front tail : List UInt8} (h : StringAt csvmaxline line i (front ++ tail))
    (hfront : csvdel ∉ front) (htail : ∀ c ∈ tail.head?, c = csvdel) (hn : front.length ≤ n) :
    fieldEnd csvdel line n i = i + front.length := by
  induction front generalizing i n with
  | nil =>
    have hstop : ¬(line i ≠ 0 ∧ line i ≠ csvdel) := by
      rintro ⟨hzero, hdel⟩
      rcases tail with - | ⟨c, tail⟩
      · exact hzero h.2
      · exact hdel (h.2.1.trans (htail c rfl))
    rcases n with - | n
    · rfl
    · rw [fieldEnd, if_neg hstop]
      rfl
  | cons c front ih =>
    obtain ⟨hc, hfront⟩ := not_or.mp (mt mem_cons.mpr hfront)
    rw [length_cons] at hn ⊢
    obtain ⟨n, rfl⟩ : ∃ m, n = m + 1 := ⟨n - 1, by omega⟩
    have hgo : line i ≠ 0 ∧ line i ≠ csvdel := by
      rw [h.2.1]
      exact ⟨h.1, Ne.symm hc⟩
    rw [fieldEnd, if_pos hgo, ih h.2.2 hfront (by omega)]
    omega

/-- At the end of the line there are no more fields. -/
theorem splitTuple_end (h : line i = 0) : splitTuple csvdel n line i fields =
    (line, i, fields) := by
  rcases n with - | n
  · rfl
  · rw [splitTuple, if_neg fun hi ↦ hi.2 h]

theorem splitSocket_done : splitSocket csvdel n true line i fields = (line, fields) := by
  rcases n with - | n
  · rfl
  · rw [splitSocket, if_neg fun h ↦ Bool.noConfusion h.1]

/-- **The two loops do the same.** -/
theorem splitSocket_eq : splitSocket csvdel n false line i fields =
    ((splitTuple csvdel n line i fields).1, (splitTuple csvdel n line i fields).2.2) := by
  induction n generalizing line i fields with
  | zero => rfl
  | succ n ih =>
    rw [splitSocket, splitTuple]
    by_cases h : i < csvmaxline ∧ line i ≠ 0
    · rw [if_pos ⟨rfl, h⟩, if_pos h]
      dsimp only
      by_cases hj : line (fieldEnd csvdel line csvmaxline i) = 0
      · rw [decide_eq_true hj, splitSocket_done, if_neg (not_not.mpr hj), splitTuple_end hj, ← hj,
          update_eq_self]
      · rw [decide_eq_false hj, ih, if_pos hj]
    · rw [if_neg fun h' ↦ h h'.2, if_neg h]

/-- **The loop cuts a line at the separators**, if the line does not end in one. -/
theorem splitTuple_spec (fields : List Nat) {r : List UInt8} {c : UInt8}
    (h : StringAt csvmaxline line i r) (hc : r.getLast? = some c) (hdel : c ≠ csvdel)
    (hn : (r.splitOn csvdel).length ≤ n) :
    ∃ line', splitTuple csvdel n line i fields =
        (line', stop i (r.splitOn csvdel), fields ++ starts i (r.splitOn csvdel)) ∧
      StringsAt csvmaxline line' i (r.splitOn csvdel) ∧ ∀ k < i, line' k = line k := by
  induction n generalizing line i fields r with
  | zero => exact absurd (length_eq_zero_iff.mp (Nat.le_zero.mp hn)) (splitOn_ne_nil _ _)
  | succ n ih =>
    have hlt := h.lt
    have hi : i < csvmaxline ∧ line i ≠ 0 := by
      rcases r with - | ⟨d, r⟩
      · cases hc
      · rw [h.2.1]
        exact ⟨by omega, h.1⟩
    rw [splitTuple, if_pos hi]
    by_cases hmem : csvdel ∈ r
    · obtain ⟨front, tail, rfl, hfront⟩ := eq_append_cons_of_mem hmem
      rw [length_append, length_cons] at hlt
      have hend : fieldEnd csvdel line csvmaxline i = i + front.length :=
        fieldEnd_eq h hfront (by simp) (by omega)
      obtain ⟨hzero, hat, -⟩ := h.drop
      have htail : tail.getLast? = some c := by
        rcases tail with - | ⟨d, tail⟩
        · rw [getLast?_append, getLast?_singleton, Option.some_or] at hc
          exact absurd (Option.some.inj hc).symm hdel
        · rwa [getLast?_append, getLast?_cons_cons, getLast?_cons, Option.some_or,
            ← getLast?_cons] at hc
      rw [splitOn_append_cons_self_of_not_mem hfront] at hn ⊢
      obtain ⟨line', heq, hstrings, hframe⟩ :=
        ih (fields ++ [i]) h.cut.2 htail (Nat.le_of_succ_le_succ hn)
      dsimp only
      rw [hend, if_pos (hat ▸ hzero)]
      refine ⟨line', ?_, ⟨h.cut.1.congr fun k _ hk ↦ hframe k (by omega), hstrings⟩, fun k hk ↦ ?_⟩
      · rw [heq, append_assoc]
        rfl
      · rw [hframe k (by omega), update_of_ne (by omega)]
    · have hend : fieldEnd csvdel line csvmaxline i = i + r.length :=
        fieldEnd_eq (by rwa [append_nil]) hmem (by simp) (by omega)
      dsimp only
      rw [hend, if_neg (not_not.mpr h.end_eq), splitTuple_end h.end_eq,
        splitOn_eq_singleton hmem]
      exact ⟨line, rfl, ⟨h, trivial⟩, fun _ _ ↦ rfl⟩

/-- What is taken from the end of a string. -/
theorem stripEol_string {s : List UInt8} (h : StringAt csvmaxline line i s)
    (hi : i = 0 ∨ line (i - 1) = 0) : StringAt csvmaxline (stripEol line (i + s.length))
      i (s.rdropWhile isEol) ∧ ∀ k < i, stripEol line (i + s.length) k = line k := by
  induction s using reverseRecOn generalizing line with
  | nil =>
    have hstrip : stripEol line i = line := by
      rcases i with - | i
      · rfl
      · have hzero : line i = 0 := hi.resolve_left i.succ_ne_zero
        rw [stripEol, hzero, if_neg (by decide)]
    rw [length_nil, Nat.add_zero, hstrip]
    exact ⟨h, fun _ _ ↦ rfl⟩
  | append_singleton s c ih =>
    rw [length_append, length_singleton, ← Nat.add_assoc, stripEol, h.drop.2.1]
    by_cases hc : isEol c = true
    · obtain ⟨hstring, hframe⟩ := ih h.cut.1 (hi.imp_right fun hzero ↦ by
        by_cases hi' : i - 1 = i + s.length
        · rw [hi', update_self]
        · rw [update_of_ne hi', hzero])
      rw [if_pos hc, rdropWhile_concat_pos _ _ _ hc]
      refine ⟨hstring, fun k hk ↦ ?_⟩
      rw [hframe k hk, update_of_ne (by omega)]
    · rw [if_neg hc, rdropWhile_concat_neg _ _ _ hc]
      exact ⟨h, fun _ _ ↦ rfl⟩

/-- The line end is taken from the last string only. -/
theorem stripEol_strings {init : List (List UInt8)} {last : List UInt8}
    (h : StringsAt csvmaxline line i (init ++ [last])) (hi : i = 0 ∨ line (i - 1) = 0) :
    StringsAt csvmaxline (stripEol line (stop i (init ++ [last])))
      i (init ++ [last.rdropWhile isEol]) ∧ ∀ k < i, stripEol line (stop i (init ++ [last]))
        k = line k := by
  induction init generalizing i with
  | nil =>
    obtain ⟨hstring, hframe⟩ := stripEol_string h.1 hi
    exact ⟨⟨hstring, trivial⟩, hframe⟩
  | cons s init ih =>
    obtain ⟨hstrings, hframe⟩ := ih h.2 (Or.inr h.1.end_eq)
    exact ⟨⟨h.1.congr fun k _ hk ↦ hframe k (by omega), hstrings⟩, fun k hk ↦ hframe k (by omega)⟩

end

/-! ## Reading a line -/

section

variable {text rest : List UInt8} {n : Nat} {buffer line : Buffer}

theorem fgetsChars_eq (h : newline ∉ text) (hn : text.length < n) :
    fgetsChars n (text ++ newline :: rest) = (text ++ [newline], rest) := by
  induction text generalizing n with
  | nil =>
    obtain ⟨n, rfl⟩ : ∃ m, n = m + 1 := ⟨n - 1, by rw [length_nil] at hn; omega⟩
    rw [nil_append, fgetsChars, if_pos rfl, nil_append]
  | cons c text ih =>
    obtain ⟨hc, htext⟩ := not_or.mp (mt mem_cons.mpr h)
    rw [length_cons] at hn
    obtain ⟨n, rfl⟩ : ∃ m, n = m + 1 := ⟨n - 1, by omega⟩
    rw [cons_append, fgetsChars, if_neg (Ne.symm hc), ih htext (by omega)]
    rfl

/-- The loop stops behind a newline. -/
theorem readLoop_stop {used : Nat} {stream : List UInt8} (hused : used ≠ 0)
    (h : buffer (used - 1) = newline) : readLoop n buffer used stream =
      some (buffer, used, stream) := by
  have hstop : ¬(used = 0 ∨ buffer (used - 1) ≠ newline) := not_or.mpr ⟨hused, not_not.mpr h⟩
  rcases n with - | n
  · rfl
  · rcases stream with - | ⟨c, stream⟩
    · rw [readLoop, if_neg hstop]
    · rw [readLoop, if_neg hstop]

theorem readLoop_eq (h : newline ∉ text) (hn : text.length < n) {used : Nat}
    (hused : used = 0 ∨ buffer (used - 1) ≠ newline) :
    readLoop n buffer used (text ++ newline :: rest) =
      some (store buffer used (text ++ [newline]), used + (text ++ [newline]).length, rest) := by
  induction text generalizing n buffer used with
  | nil =>
    obtain ⟨n, rfl⟩ : ∃ m, n = m + 1 := ⟨n - 1, by rw [length_nil] at hn; omega⟩
    rw [nil_append, readLoop, if_pos hused, nil_append, store_cons, store_nil]
    exact readLoop_stop used.succ_ne_zero (update_self ..)
  | cons c text ih =>
    obtain ⟨hc, htext⟩ := not_or.mp (mt mem_cons.mpr h)
    rw [length_cons] at hn
    obtain ⟨n, rfl⟩ : ∃ m, n = m + 1 := ⟨n - 1, by omega⟩
    have hgo : used + 1 = 0 ∨ update buffer used c (used + 1 - 1) ≠ newline := by
      rw [Nat.add_sub_cancel, update_self]
      exact Or.inr (Ne.symm hc)
    rw [cons_append, readLoop, if_pos hused, ih htext (by omega) hgo, cons_append,
      store_cons, length_cons, Nat.add_assoc, Nat.add_comm 1]

end

/-- The buffer after a line was read. -/
def lineBuffer (line : Buffer) (l : Line) : Buffer := store line 0 (l.bytes ++ [0])

theorem Line.bytes_append (l : Line) (rest : List UInt8) : l.bytes ++ rest = l.text ++
    newline :: rest := by
  rw [Line.bytes, append_assoc, singleton_append]

theorem Line.length_text_lt (l : Line) : l.text.length < csvmaxline - 1 - 1 := by
  have h := l.length_lt
  rw [length_append, length_singleton] at h
  omega

theorem fgets_bytes (line : Buffer) (l : Line) (rest : List UInt8) :
    fgets line csvmaxline (l.bytes ++ rest) = some (lineBuffer line l, rest) := by
  have hlt := l.length_text_lt
  rw [l.bytes_append, fgets, if_neg (by simp), fgetsChars_eq l.newline_notMem (by omega)]
  rfl

theorem gsReadLine_bytes (line : Buffer) (l : Line) (rest : List UInt8) :
    gsReadLine line (csvmaxline - 1) (l.bytes ++ rest) = some (lineBuffer line l, rest) := by
  rw [l.bytes_append, gsReadLine, readLoop_eq l.newline_notMem l.length_text_lt (Or.inl rfl),
    Option.map_some]
  dsimp only
  rw [update_store]
  rfl

variable {files : List (List Line)}

/-- The next line is the first of those that are left, in whichever file it is. -/
theorem nextLine_cons {l : Line} {ls : List Line} (line : Buffer) {pd : List Line}
    (h : pd ++ files.flatten = l :: ls) : ∃ (pd' : List Line) (files' : List (List Line)),
      pd' ++ files'.flatten = ls ∧ nextLine line (pd.flatMap Line.bytes)
        (files.map (flatMap Line.bytes)) =
          some ⟨pd'.flatMap Line.bytes, files'.map (flatMap Line.bytes),
            lineBuffer line l⟩ := by
  induction files generalizing pd with
  | nil =>
    rw [flatten_nil, append_nil] at h
    refine ⟨ls, [], append_nil ls, ?_⟩
    rw [h, flatMap_cons, map_nil, nextLine, fgets_bytes]
    rfl
  | cons file files ih =>
    rw [map_cons, nextLine]
    rcases pd with - | ⟨l', pd⟩
    · obtain ⟨pd', files', hrest, hnext⟩ := ih h
      exact ⟨pd', files', hrest, hnext⟩
    · obtain ⟨rfl, hls⟩ := cons.inj h
      rw [flatMap_cons, fgets_bytes]
      exact ⟨pd, file :: files, hls, rfl⟩

theorem nextLine_nil (line : Buffer) {pd : List Line} (h : pd ++ files.flatten = []) :
    nextLine line (pd.flatMap Line.bytes) (files.map (flatMap Line.bytes)) = none := by
  obtain ⟨rfl, hfiles⟩ := append_eq_nil_iff.mp h
  clear h
  induction files with
  | nil => rfl
  | cons file files ih =>
    obtain ⟨rfl, hfiles⟩ := append_eq_nil_iff.mp (flatten_cons ▸ hfiles)
    exact ih hfiles

/-! ## What is handed on for a line -/

/-- The fields with line ends taken from the last one. -/
def Line.fileFields (csvdel : UInt8) (l : Line) : List (List UInt8) :=
  (l.fields csvdel).modifyLast (rdropWhile isEol)

/-- The fields with the line end behind the last one. -/
def Line.socketFields (csvdel : UInt8) (l : Line) : List (List UInt8) :=
  (l.fields csvdel).modifyLast (· ++ l.ending)

theorem Line.bytes_eq (l : Line) : l.bytes = l.content ++ l.ending := by
  rw [Line.bytes, Line.content, Line.ending]
  by_cases h : l.crlf = true
  · have htext := dropLast_append_getLast? carriageReturn (eq_of_beq h)
    rw [if_pos h, if_pos h]
    nth_rewrite 1 [← htext]
    rw [append_assoc]
    rfl
  · rw [if_neg h, if_neg h]

theorem Line.isEol_ending (l : Line) : ∀ c ∈ l.ending, isEol c = true := by
  rw [Line.ending]
  split_ifs
  · exact forall_mem_cons.mpr ⟨rfl, forall_mem_singleton.mpr rfl⟩
  · exact forall_mem_singleton.mpr rfl

theorem Line.getLast?_bytes (l : Line) : l.bytes.getLast? = some newline := getLast?_concat

theorem Line.stringAt (line : Buffer) (l : Line) : StringAt csvmaxline (lineBuffer line l)
    0 l.bytes := by
  refine stringAt_store ?_ ?_
  · rw [Line.bytes, mem_append, mem_singleton]
    rintro (h | h)
    · exact l.zero_notMem h
    · exact absurd h (by decide)
  · have h : l.bytes.length < csvmaxline - 1 := l.length_lt
    omega

theorem rdropWhile_append_of_forall {α : Type*} {p : α → Bool} (xs : List α) {ys : List α}
    (h : ∀ y ∈ ys, p y = true) : (xs ++ ys).rdropWhile p = xs.rdropWhile p := by
  induction ys using reverseRecOn with
  | nil => rw [append_nil]
  | append_singleton ys y ih =>
    rw [← append_assoc, rdropWhile_concat_pos _ _ _ (h y (by simp))]
    exact ih fun z hz ↦ h z (mem_append_left _ hz)

section

variable {csvdel : UInt8} {l : Line}

theorem notMem_ending (h : isEol csvdel = false) : csvdel ∉ l.ending := fun hmem ↦
  Bool.false_ne_true (h.symm.trans (l.isEol_ending csvdel hmem))

theorem splitOn_bytes (h : isEol csvdel = false) : l.bytes.splitOn csvdel =
    l.socketFields csvdel := by
  obtain ⟨init, last, hfields, -, happend⟩ := Separator.exists_splitOn_append csvdel l.content
  rw [l.bytes_eq, happend _ (notMem_ending h), Line.socketFields, Line.fields, hfields,
    modifyLast_concat]

/-- The line cut by the loops. -/
theorem splitTuple_line (hdel : isEol csvdel = false)
    (hlen : (l.fields csvdel).length ≤ csvelements) (line : Buffer) : ∃ line',
        splitTuple csvdel csvelements (lineBuffer line l) 0 [] =
          (line', stop 0 (l.socketFields csvdel), starts 0 (l.socketFields csvdel)) ∧
      StringsAt csvmaxline line' 0 (l.socketFields csvdel) := by
  have hne : newline ≠ csvdel := by
    rintro rfl
    exact absurd hdel (by decide)
  have hlen' : (l.bytes.splitOn csvdel).length ≤ csvelements := by
    obtain ⟨init, last, hfields, -, happend⟩ := Separator.exists_splitOn_append csvdel l.content
    rw [Line.fields, hfields, length_append] at hlen
    rwa [l.bytes_eq, happend _ (notMem_ending hdel), length_append]
  obtain ⟨line', heq, hstrings, -⟩ :=
    splitTuple_spec [] (l.stringAt line) l.getLast?_bytes hne hlen'
  rw [splitOn_bytes hdel] at heq hstrings
  exact ⟨line', heq, hstrings⟩

/-- What is handed on for a line in a file. -/
theorem csvReadTuple_cons {pd : List Line} {ls : List Line} (hdel : isEol csvdel = false)
    (hlen : (l.fields csvdel).length ≤ csvelements) (line : Buffer)
    (h : pd ++ files.flatten = l :: ls) :
    ∃ (packet : Packet) (pd' : List Line) (files' : List (List Line)) (line' : Buffer),
      pd' ++ files'.flatten = ls ∧ csvReadTuple csvdel
        ⟨pd.flatMap Line.bytes, files.map (flatMap Line.bytes), line⟩ =
        some (packet, ⟨pd'.flatMap Line.bytes, files'.map (flatMap Line.bytes), line'⟩) ∧
      List.Forall₂ (StringAt csvmaxline packet.line) packet.fields (l.fileFields csvdel) := by
  obtain ⟨pd', files', hrest, hnext⟩ := nextLine_cons line h
  obtain ⟨line', hsplit, hstrings⟩ := splitTuple_line hdel hlen line
  obtain ⟨init, last, hfields, -, -⟩ := Separator.exists_splitOn_append csvdel l.content
  have hsocket : l.socketFields csvdel = init ++ [last ++ l.ending] := by
    rw [Line.socketFields, Line.fields, hfields, modifyLast_concat]
  have hfile : l.fileFields csvdel = init ++ [last.rdropWhile isEol] := by
    rw [Line.fileFields, Line.fields, hfields, modifyLast_concat]
  rw [hsocket] at hsplit hstrings
  have hstrip := (stripEol_strings hstrings (Or.inl rfl)).1
  rw [rdropWhile_append_of_forall last l.isEol_ending] at hstrip
  refine ⟨⟨stripEol line' (stop 0 (init ++ [last ++ l.ending])),
    starts 0 (init ++ [last ++ l.ending])⟩, pd', files',
      stripEol line' (stop 0 (init ++ [last ++ l.ending])), hrest, ?_, ?_⟩
  · rw [csvReadTuple, hnext, Option.map_some]
    dsimp only
    rw [hsplit]
  · rw [hfile, starts_concat 0 init _ (last.rdropWhile isEol)]
    exact hstrip.forall₂

/-- What is handed on for a line from the socket. -/
theorem csvReadSocket_cons (hdel : isEol csvdel = false)
    (hlen : (l.fields csvdel).length ≤ csvelements) (x : UInt32) (line : Buffer)
      (rest : List UInt8) : ∃ (packet : Packet) (line' : Buffer),
        csvReadSocket csvdel x ⟨l.bytes ++ rest, line, 0⟩ = some (packet, ⟨rest, line', 0⟩) ∧
      List.Forall₂ (StringAt csvmaxline packet.line) packet.fields (l.socketFields csvdel) := by
  obtain ⟨line', hsplit, hstrings⟩ := splitTuple_line hdel hlen line
  -- nothing is ever carried over, whatever `x` is
  have hcarried : ¬(0 : UInt32) > x + 1 := by
    rw [gt_iff_lt, UInt32.lt_iff_toNat_lt]
    exact Nat.not_lt_zero _
  refine ⟨⟨line', starts 0 (l.socketFields csvdel)⟩, update line' 0 0, ?_,
    hstrings.forall₂⟩
  rw [csvReadSocket, gsReadLine_bytes, Option.map_some]
  dsimp only
  rw [splitSocket_eq, hsplit, if_neg hcarried]
  rfl

end

/-! ## Runs -/

section

variable {csvdel : UInt8}

theorem Hands.unique {packets : List Packet} {records records' : List (List (List UInt8))}
    (h : Hands packets records) (h' : Hands packets records') : records = records' := by
  induction h generalizing records' with
  | nil => exact (forall₂_nil_left_iff.mp h').symm
  | cons hfields _ ih =>
    obtain ⟨fields', records', hfields', hrecords, rfl⟩ := forall₂_cons_left_iff.mp h'
    rw [unique_of_forall₂ hfields hfields', ih hrecords]

/-- What files hand on, whatever is left of the open one. -/
theorem hands_filePackets (hdel : isEol csvdel = false) (n : Nat) (pd : List Line)
    (hlen : ∀ l ∈ pd ++ files.flatten, (l.fields csvdel).length ≤ csvelements) (line : Buffer) :
    Hands (filePackets csvdel n ⟨pd.flatMap Line.bytes, files.map (flatMap Line.bytes), line⟩)
      (((pd ++ files.flatten).map (Line.fileFields csvdel)).take n) := by
  induction n generalizing pd files line with
  | zero => exact List.Forall₂.nil
  | succ n ih =>
    rcases hls : pd ++ files.flatten with - | ⟨l, ls⟩
    · rw [filePackets, csvReadTuple, nextLine_nil line hls]
      exact List.Forall₂.nil
    · rw [hls] at hlen
      obtain ⟨packet, pd', files', line', hrest, hread, hfields⟩ :=
        csvReadTuple_cons hdel (hlen l mem_cons_self) line hls
      rw [filePackets, hread, map_cons, take_succ_cons, ← hrest]
      refine List.Forall₂.cons hfields (ih pd' (fun l' hl' ↦ hlen l' ?_) line')
      exact mem_cons_of_mem l (hrest ▸ hl')

theorem hands_socketPackets (hdel : isEol csvdel = false) (polls : List (Option UInt32))
    {ls : List Line} (hlen : ∀ l ∈ ls, (l.fields csvdel).length ≤ csvelements) (line : Buffer) :
    Hands (socketPackets csvdel polls ⟨ls.flatMap Line.bytes, line, 0⟩)
      ((ls.map (Line.socketFields csvdel)).take (polls.countP Option.isSome)) := by
  induction polls generalizing ls line with
  | nil => exact List.Forall₂.nil
  | cons poll polls ih =>
    rcases poll with - | x
    · exact ih hlen line
    · rw [countP_cons_of_pos rfl]
      rcases ls with - | ⟨l, ls⟩
      · exact List.Forall₂.nil
      · obtain ⟨packet, line', hread, hfields⟩ :=
          csvReadSocket_cons hdel (hlen l mem_cons_self) x line (ls.flatMap Line.bytes)
        rw [flatMap_cons, socketPackets, hread, map_cons, take_succ_cons]
        exact List.Forall₂.cons hfields
          (ih (fun l' hl' ↦ hlen l' (mem_cons_of_mem l hl')) line')

end

theorem Line.newline_notMem_content (l : Line) : newline ∉ l.content := by
  rw [Line.content]
  split_ifs
  · exact fun h ↦ l.newline_notMem (mem_of_mem_dropLast h)
  · exact l.newline_notMem

/-- Taking line ends away does no harm to a line unless another carriage return is at its end. -/
theorem Line.fileFields_eq_iff {csvdel : UInt8} (hdel : isEol csvdel = false) (l : Line) :
    l.fileFields csvdel = l.fields csvdel ↔ l.content.getLast? ≠ some carriageReturn := by
  obtain ⟨init, last, hfields, hlast, -⟩ := Separator.exists_splitOn_append csvdel l.content
  rw [Line.fileFields, Line.fields, hfields, modifyLast_concat, append_singleton_inj,
    and_iff_right rfl, rdropWhile_eq_self_iff]
  constructor
  · intro h hcr
    -- the last field ends in it too, as it is no separator
    obtain ⟨front, hfront⟩ := getLast?_eq_some_iff.mp hcr
    obtain ⟨init', last', -, -, happend⟩ := Separator.exists_splitOn_append csvdel front
    have hmem : csvdel ∉ [carriageReturn] := fun hmem ↦ by
      rw [mem_singleton.mp hmem] at hdel
      exact absurd hdel (by decide)
    rw [hfront, happend _ hmem, append_singleton_inj] at hfields
    obtain ⟨-, rfl⟩ := hfields
    refine h (append_ne_nil_of_right_ne_nil _ (cons_ne_nil _ _)) ?_
    rw [getLast_concat]
    rfl
  · intro h hne heol
    have hlast? : l.content.getLast? = some (last.getLast hne) := by
      obtain ⟨front, hfront⟩ := hlast
      rw [← hfront, getLast?_append, getLast?_eq_some_getLast hne, Option.some_or]
    rcases Bool.or_eq_true_iff.mp heol with heq | heq
    · exact l.newline_notMem_content (eq_of_beq heq ▸ mem_of_getLast? hlast?)
    · exact h (hlast?.trans (congrArg some (eq_of_beq heq)))

theorem Line.socketFields_ne {csvdel : UInt8} (l : Line) : l.socketFields csvdel ≠
    l.fields csvdel := by
  obtain ⟨init, last, hfields, -, -⟩ := Separator.exists_splitOn_append csvdel l.content
  rw [Line.socketFields, Line.fields, hfields, modifyLast_concat]
  intro h
  have hnil := append_right_eq_self.mp (singleton_inj.mp (append_cancel_left h))
  rw [Line.ending] at hnil
  split_ifs at hnil

/-- The fields from files are those of the lines if no line has another carriage return at its
end. -/
theorem handsFile_iff (input : Input) :
    HandsFile input ↔ ∀ l ∈ input.files.flatten, l.content.getLast? ≠ some carriageReturn := by
  have hands (n : Nat) := hands_filePackets input.csvdel_ne_eol n [] input.length_fields fun _ ↦ 0
  constructor
  · intro h l hl
    have heq := (h input.files.flatten.length).unique (hands _)
    rw [nil_append, take_of_length_le (by rw [length_map]),
      take_of_length_le (by rw [length_map])] at heq
    exact (l.fileFields_eq_iff input.csvdel_ne_eol).mp (map_inj_left.mp heq l hl).symm
  · intro h n
    have heq : input.files.flatten.map (Line.fields input.csvdel) =
        input.files.flatten.map (Line.fileFields input.csvdel) :=
      map_congr_left fun l hl ↦ ((l.fileFields_eq_iff input.csvdel_ne_eol).mpr (h l hl)).symm
    rw [heq]
    exact hands n

/-- Those from the socket never are. -/
theorem handsSocket_iff (input : Input) : HandsSocket input ↔ input.files.flatten = [] := by
  have hands (polls : List (Option UInt32)) :=
    hands_socketPackets input.csvdel_ne_eol polls input.length_fields fun _ ↦ 0
  constructor
  · intro h
    rcases hls : input.files.flatten with - | ⟨l, ls⟩
    · rfl
    · have heq := (h [some 0]).unique (hands [some 0])
      rw [hls] at heq
      exact absurd (cons.inj heq).1.symm l.socketFields_ne
  · intro h polls
    have hnil := hands polls
    rw [h] at hnil ⊢
    rw [Input.socketState, h]
    exact hnil

/-- **Files and a socket hand on the same packets, those of the lines, only if there are no
lines.** -/
theorem same_iff (input : Input) : Same input ↔ input.files.flatten = [] := by
  rw [Same, handsSocket_iff, handsFile_iff]
  constructor
  · exact And.right
  · intro h
    refine ⟨fun l hl ↦ ?_, h⟩
    rw [h] at hl
    exact absurd hl not_mem_nil

/-- `a,b` with a newline: from the socket the second field is not `b`. -/
theorem not_same_ab : ¬∀ input : Input, Same input := by
  intro h
  have hlen : ∀ l ∈ ([[⟨[97, 44, 98], by decide, by decide, by decide⟩]] :
      List (List Line)).flatten, (l.fields 44).length ≤ csvelements := forall_mem_singleton.mpr
        (by decide)
  have hhands := (h ⟨44, by decide, by decide, _, hlen⟩).2
  exact absurd ((handsSocket_iff _).mp hhands) (cons_ne_nil _ _)

end Tigon.Gscprts.RtsCsv
