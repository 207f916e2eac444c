import GtuOs.Console.PrintInteger
import GtuOs.Lib.Tokens
import GtuOs.Multitasking.Queue

/-!
# The process table

`PrintProcessTable` prints the tasks, the ready queue and the count of the interrupts (`Snapshot`), as lines of
words and numerals. What has been printed is read back by splitting it into lines, and those into words, so
that any number of tables that have been printed one after the other stand for what they show
(`readTables_flatMap`).
-/

namespace GtuOs

/-! ## Printing -/

/-- What `PrintProcessInfo` prints for a state. -/
def State.text : State → List UInt8
  | .ready => ascii "Ready         "
  | .running => ascii "Running       "
  | .blocked => ascii "Blocked       "
  | .terminated => ascii "Terminated    "

namespace TaskManager

/-- `PrintProcessInfo`, with what the array of `printInteger` holds at first. -/
def printProcessInfo (raw : ℕ → UInt8) (c : Console) (task : Task) : Console :=
  let c := c.printInteger (.ofInt task.pid) ⟨raw, 0⟩
  let c := c.printf (ascii "    ")
  let c := c.printInteger (.ofInt task.ppid) ⟨raw, 0⟩
  let c := c.printf (ascii "   ")
  let c := c.printf task.state.text
  let c := c.printInteger (.ofInt task.priority) ⟨raw, 0⟩
  let c := c.printf (ascii "  ")
  let c := c.printInteger (.ofInt task.arrivalOrder) ⟨raw, 0⟩
  c.printf (ascii "\n")

/-- `PrintProcessTable`. -/
def printProcessTable (s : TaskManager) (raw : ℕ → UInt8) (c : Console) : Console :=
  let c := c.printf (ascii "********************************** \n")
  let c := c.printf (ascii "PID PPID   State   Priority   Arrival Order \n")
  let c := (List.range s.numTasks).foldl (fun c i => printProcessInfo raw c (s.tasks i)) c
  let c := c.printf (ascii "Ready queue PIDs: ")
  let c := s.queue.foldl
    (fun c i => (c.printInteger (.ofInt (s.tasks i).pid) ⟨raw, 0⟩).printf (ascii " ")) c
  let c := c.printf (ascii "\n")
  let c := c.printf (ascii "Interrupt number after collatz: ")
  let c := c.printInteger (.ofInt s.interruptNumAfterCollatz) ⟨raw, 0⟩
  let c := c.printf (ascii "\n")
  c.printf (ascii "********************************** \n")

end TaskManager

/-! ## What is shown -/

/-- What is shown of a task. -/
structure Row where
  pid : ℤ
  ppid : ℤ
  state : State
  priority : ℤ
  arrivalOrder : ℤ
  deriving DecidableEq

/-- What the process table shows. -/
structure Snapshot where
  rows : List Row
  queue : List ℤ
  interruptNum : ℤ
  deriving DecidableEq

def Task.row (t : Task) : Row := ⟨t.pid, t.ppid, t.state, t.priority, t.arrivalOrder⟩

def TaskManager.snapshot (s : TaskManager) : Snapshot where
  rows := (List.range s.numTasks).map fun i => (s.tasks i).row
  queue := s.queue.map fun i => (s.tasks i).pid
  interruptNum := s.interruptNumAfterCollatz

/-- The line of a task. -/
def Row.line (r : Row) : List UInt8 :=
  numeralOf r.pid ++ ascii "    " ++ numeralOf r.ppid ++ ascii "   " ++ r.state.text ++ numeralOf r.priority ++
    ascii "  " ++ numeralOf r.arrivalOrder

namespace Snapshot

/-- The lines of the table. -/
def lines (t : Snapshot) : List (List UInt8) :=
  [ascii "********************************** ", ascii "PID PPID   State   Priority   Arrival Order "] ++
    t.rows.map Row.line ++
    [ascii "Ready queue PIDs: " ++ t.queue.flatMap fun n => numeralOf n ++ [space],
      ascii "Interrupt number after collatz: " ++ numeralOf t.interruptNum,
      ascii "********************************** "]

/-- The pids of the tasks that are running. -/
def running (t : Snapshot) : List ℤ := (t.rows.filter fun r => r.state = .running).map Row.pid

/-- The text of the table. -/
def text (t : Snapshot) : List UInt8 := t.lines.flatMap (· ++ [newline])

end Snapshot

/-! ## Reading -/

/-- The integer that a word stands for. -/
def wordValue (word : List UInt8) : ℤ := valueOf (if word.head? = some hyphen then word else space :: word)

/-- The words of a line. -/
def words (line : List UInt8) : List (List UInt8) := tokens (· == space) line

/-- The word for a state. -/
def State.word : State → List UInt8
  | .ready => ascii "Ready"
  | .running => ascii "Running"
  | .blocked => ascii "Blocked"
  | .terminated => ascii "Terminated"

def State.ofWord (word : List UInt8) : Option State :=
  [ready, running, blocked, terminated].find? fun state => state.word = word

/-- The task that a line is about. -/
def Row.ofWords : List (List UInt8) → Option Row
  | [pid, ppid, state, priority, arrivalOrder] =>
    (State.ofWord state).map fun state =>
      ⟨wordValue pid, wordValue ppid, state, wordValue priority, wordValue arrivalOrder⟩
  | _ => none

/-- The words of the line above the tasks. -/
def headline : List (List UInt8) := words (ascii "PID PPID   State   Priority   Arrival Order ")

/-- What a table shows, by the words of the lines after the headline. -/
def Snapshot.ofWords (lines : List (List (List UInt8))) : Snapshot :=
  let isTask : List (List UInt8) → Bool := fun line => line.head? != some (ascii "Ready")
  let rest := lines.dropWhile isTask
  { rows := (lines.takeWhile isTask).filterMap Row.ofWords
    queue := ((rest.getD 0 []).drop 3).map wordValue
    interruptNum := wordValue ((rest.getD 1 []).getD 4 []) }

/-- What the tables in a text show. -/
def readTables (text : List UInt8) : List Snapshot :=
  let lines := (text.splitOnP (· == newline)).map words
  ((lines.splitOnP (· == headline)).tail).map Snapshot.ofWords

/-! ## Words -/

variable {n : ℤ} {line rest : List UInt8}

/-- The word of a numeral. -/
def numeralWord (n : ℤ) : List UInt8 := if n < 0 then numeralOf n else digitsOf n.natAbs

theorem digitsOf_ne_nil (n : ℕ) : digitsOf n ≠ [] := by
  rw [digitsOf]
  split_ifs with h
  · exact List.cons_ne_nil _ _
  · simpa using Nat.digits_ne_nil_iff_ne_zero.2 h

theorem isDigit_of_mem {n : ℕ} {c : UInt8} (hc : c ∈ digitsOf n) : 48 ≤ c.toNat ∧ c.toNat < 58 := by
  rw [digitsOf] at hc
  split_ifs at hc
  · obtain rfl := List.mem_singleton.1 hc
    decide
  · obtain ⟨d, hd, rfl⟩ := List.mem_map.1 (List.mem_reverse.1 hc)
    have hlt : d < 10 := Nat.digits_lt_base (by decide) hd
    interval_cases d <;> decide

theorem ne_of_isDigit {n : ℕ} {c d : UInt8} (hc : c ∈ digitsOf n) (hd : ¬(48 ≤ d.toNat ∧ d.toNat < 58)) : c ≠ d :=
  fun h => hd (h ▸ isDigit_of_mem hc)

theorem numeralWord_ne_nil (n : ℤ) : numeralWord n ≠ [] := by
  rw [numeralWord]
  split_ifs
  · exact List.cons_ne_nil _ _
  · exact digitsOf_ne_nil _

theorem mem_numeralWord {c : UInt8} (hc : c ∈ numeralWord n) : c = hyphen ∨ 48 ≤ c.toNat ∧ c.toNat < 58 := by
  rw [numeralWord, numeralOf] at hc
  split_ifs at hc
  · rcases List.mem_cons.1 hc with rfl | hc
    · exact .inl rfl
    · exact .inr (isDigit_of_mem hc)
  · exact .inr (isDigit_of_mem hc)

theorem numeralWord_ne_space {c : UInt8} (hc : c ∈ numeralWord n) : (c == space) = false := by
  rcases mem_numeralWord hc with rfl | h
  · rfl
  · refine beq_eq_false_iff_ne.2 fun heq => ?_
    rw [heq] at h
    exact absurd h (by decide)

/-- A numeral is its word, after a blank if it has no sign. -/
theorem words_numeralOf (rest : List UInt8) : words (numeralOf n ++ rest) = words (numeralWord n ++ rest) := by
  rw [numeralWord, numeralOf]
  split_ifs
  · rfl
  · exact tokens_cons_delim rfl

theorem words_numeralOf_space (rest : List UInt8) :
    words (numeralOf n ++ space :: rest) = numeralWord n :: words rest := by
  rw [words_numeralOf]
  exact tokens_word (fun _ => numeralWord_ne_space) (numeralWord_ne_nil n) rfl

theorem words_numeralOf_end : words (numeralOf n) = [numeralWord n] := by
  have happend := words_numeralOf (n := n) []
  rw [List.append_nil, List.append_nil] at happend
  rw [happend]
  exact tokens_eq_singleton (fun _ => numeralWord_ne_space) (numeralWord_ne_nil n)

/-- Numerals read back. -/
theorem wordValue_numeralWord (n : ℤ) : wordValue (numeralWord n) = n := by
  rw [wordValue, numeralWord]
  split_ifs with hn hsign hsign
  · exact valueOf_numeralOf n
  · rw [numeralOf, if_pos hn] at hsign
    exact absurd rfl hsign
  · exact absurd rfl (ne_of_isDigit (List.mem_of_mem_head? hsign) (by decide))
  · have hnumeral := valueOf_numeralOf n
    rwa [numeralOf, if_neg hn] at hnumeral

theorem State.text_eq (state : State) :
    ∃ k, ∀ rest, state.text ++ rest = state.word ++ space :: (List.replicate k space ++ rest) := by
  cases state with
  | ready => exact ⟨8, fun _ => rfl⟩
  | running => exact ⟨6, fun _ => rfl⟩
  | blocked => exact ⟨6, fun _ => rfl⟩
  | terminated => exact ⟨3, fun _ => rfl⟩

theorem words_state (state : State) (rest : List UInt8) : words (state.text ++ rest) = state.word :: words rest := by
  obtain ⟨k, hk⟩ := state.text_eq
  have hword : ∀ c ∈ state.word, (c == space) = false := by cases state <;> decide +kernel
  have hne : state.word ≠ [] := by cases state <;> decide +kernel
  rw [hk, words, tokens_word hword hne rfl, tokens_replicate k rfl]
  rfl

theorem State.ofWord_word (state : State) : State.ofWord state.word = some state := by
  cases state <;> rfl

theorem words_blanks (k : ℕ) (rest : List UInt8) : words (List.replicate k space ++ rest) = words rest :=
  tokens_replicate k rfl

/-- The words of the line of a task. -/
theorem words_line (r : Row) : words r.line =
    [numeralWord r.pid, numeralWord r.ppid, r.state.word, numeralWord r.priority, numeralWord r.arrivalOrder] := by
  have hsplit : r.line = numeralOf r.pid ++ space :: (List.replicate 3 space ++ (numeralOf r.ppid ++ space ::
      (List.replicate 2 space ++ (r.state.text ++ (numeralOf r.priority ++ space ::
        (List.replicate 1 space ++ numeralOf r.arrivalOrder)))))) := by
    simp only [Row.line, List.append_assoc]
    rfl
  rw [hsplit, words_numeralOf_space, words_blanks, words_numeralOf_space, words_blanks, words_state,
    words_numeralOf_space, words_blanks, words_numeralOf_end]

/-- Lines of tasks read back. -/
theorem Row.ofWords_line (r : Row) : Row.ofWords (words r.line) = some r := by
  rw [words_line, Row.ofWords, State.ofWord_word]
  simp only [wordValue_numeralWord, Option.map_some]

/-- The words of the line of the queue. -/
theorem words_queue (q : List ℤ) : words (ascii "Ready queue PIDs: " ++ q.flatMap fun n => numeralOf n ++ [space]) =
    [ascii "Ready", ascii "queue", ascii "PIDs:"] ++ q.map numeralWord := by
  have hq : words (q.flatMap fun n => numeralOf n ++ [space]) = q.map numeralWord := by
    induction q with
    | nil => rfl
    | cons n q ih =>
      rw [List.flatMap_cons, List.append_assoc, List.singleton_append, words_numeralOf_space, ih]
      rfl
  have hsplit : ascii "Ready queue PIDs: " = ascii "Ready queue PIDs:" ++ [space] := rfl
  have hword : words (ascii "Ready queue PIDs:") = [ascii "Ready", ascii "queue", ascii "PIDs:"] := by decide +kernel
  rw [← hq, ← hword, hsplit, List.append_assoc]
  exact tokens_append_cons rfl

/-- The words of the line of the count. -/
theorem words_interruptNum (n : ℤ) : words (ascii "Interrupt number after collatz: " ++ numeralOf n) =
    [ascii "Interrupt", ascii "number", ascii "after", ascii "collatz:", numeralWord n] := by
  have hsplit : ascii "Interrupt number after collatz: " = ascii "Interrupt number after collatz:" ++ [space] := rfl
  have hword : words (ascii "Interrupt number after collatz:") =
      [ascii "Interrupt", ascii "number", ascii "after", ascii "collatz:"] := by decide +kernel
  have hlist : [ascii "Interrupt", ascii "number", ascii "after", ascii "collatz:", numeralWord n] =
      words (ascii "Interrupt number after collatz:") ++ words (numeralOf n) := by
    rw [hword, words_numeralOf_end]
    rfl
  rw [hlist, hsplit, List.append_assoc]
  exact tokens_append_cons rfl

/-! ## Tables -/

namespace Snapshot

/-- The words of the lines after the headline. -/
def body (t : Snapshot) : List (List (List UInt8)) :=
  t.rows.map (fun r => words r.line) ++
    [[ascii "Ready", ascii "queue", ascii "PIDs:"] ++ t.queue.map numeralWord,
      [ascii "Interrupt", ascii "number", ascii "after", ascii "collatz:", numeralWord t.interruptNum],
      words (ascii "********************************** ")]

theorem map_words_lines (t : Snapshot) :
    t.lines.map words = words (ascii "********************************** ") :: headline :: t.body := by
  rw [lines, body, List.map_append, List.map_append, List.map_map]
  simp only [List.map_cons, List.map_nil, words_queue, words_interruptNum]
  rfl

theorem numeralWord_ne_ready (n : ℤ) : numeralWord n ≠ ascii "Ready" := fun h => by
  have hmem : (82 : UInt8) ∈ numeralWord n := h ▸ (by decide : (82 : UInt8) ∈ ascii "Ready")
  rcases mem_numeralWord hmem with h | h <;> exact absurd h (by decide)

/-- A table reads back, whatever comes after it. -/
theorem ofWords_body (t : Snapshot) (rest : List (List (List UInt8))) : ofWords (t.body ++ rest) = t := by
  have htasks : ∀ line ∈ t.rows.map (fun r => words r.line), (line.head? != some (ascii "Ready")) = true := by
    intro line hl
    obtain ⟨r, -, rfl⟩ := List.mem_map.1 hl
    rw [words_line, List.head?_cons, bne_iff_ne]
    exact fun h => numeralWord_ne_ready _ (Option.some.inj h)
  have hrows : (t.rows.map fun r => words r.line).filterMap Row.ofWords = t.rows := by
    rw [List.filterMap_map]
    exact (List.filterMap_congr fun r _ => Row.ofWords_line r).trans List.filterMap_some
  have hqueue : (t.queue.map numeralWord).map wordValue = t.queue := by
    rw [List.map_map]
    exact (List.map_congr_left fun n _ => wordValue_numeralWord n).trans (List.map_id _)
  rw [ofWords, body, List.append_assoc, List.takeWhile_append_of_pos htasks, List.dropWhile_append_of_pos htasks]
  rw [List.cons_append, List.takeWhile_cons_of_neg (by simp), List.dropWhile_cons_of_neg (by simp), List.append_nil,
    hrows]
  change Snapshot.mk t.rows ((t.queue.map numeralWord).map wordValue) (wordValue (numeralWord t.interruptNum)) = t
  rw [hqueue, wordValue_numeralWord]

theorem newline_not_mem_numeralOf (n : ℤ) : newline ∉ numeralOf n := fun h => by
  rcases List.mem_cons.1 h with h | h
  · split_ifs at h <;> exact absurd h (by decide)
  · exact absurd (isDigit_of_mem h) (by decide)

/-- The lines of the table are lines. -/
theorem newline_not_mem_lines (t : Snapshot) : ∀ line ∈ t.lines, newline ∉ line := by
  have hnum := newline_not_mem_numeralOf
  have hstate : ∀ state : State, newline ∉ state.text := fun state => by cases state <;> decide +kernel
  have hspace : newline ∉ [space] := by decide
  have hline : ∀ r : Row, newline ∉ r.line := fun r => by
    have h3 : newline ∉ ascii "   " := by decide +kernel
    have h4 : newline ∉ ascii "    " := by decide +kernel
    have h2 : newline ∉ ascii "  " := by decide +kernel
    simp only [Row.line, List.mem_append, not_or]
    exact ⟨⟨⟨⟨⟨⟨⟨hnum _, h4⟩, hnum _⟩, h3⟩, hstate _⟩, hnum _⟩, h2⟩, hnum _⟩
  intro line hmem
  rw [lines, List.mem_append, List.mem_append] at hmem
  rcases hmem with (hmem | hmem) | hmem
  · revert line
    decide +kernel
  · obtain ⟨r, -, rfl⟩ := List.mem_map.1 hmem
    exact hline r
  · simp only [List.mem_cons, List.not_mem_nil, or_false] at hmem
    rcases hmem with rfl | rfl | rfl
    · simp only [List.mem_append, List.mem_flatMap, not_or, not_exists, not_and]
      exact ⟨by decide +kernel, fun n _ => ⟨hnum n, hspace⟩⟩
    · rw [List.mem_append, not_or]
      exact ⟨by decide +kernel, hnum _⟩
    · decide +kernel

theorem headline_not_mem_body (t : Snapshot) : ∀ line ∈ t.body, (line == headline) = false := by
  have hheadline : headline =
      [ascii "PID", ascii "PPID", ascii "State", ascii "Priority", ascii "Arrival", ascii "Order"] := by decide +kernel
  intro line hline
  rw [hheadline, beq_eq_false_iff_ne]
  rw [body, List.mem_append] at hline
  rcases hline with hline | hline
  · obtain ⟨r, -, rfl⟩ := List.mem_map.1 hline
    rw [words_line]
    intro h
    have hlen : 5 = 6 := congrArg List.length h
    cases hlen
  · have hready : ascii "Ready" ≠ ascii "PID" := by decide +kernel
    have hinterrupt : ascii "Interrupt" ≠ ascii "PID" := by decide +kernel
    simp only [List.mem_cons, List.not_mem_nil, or_false] at hline
    rcases hline with rfl | rfl | rfl
    · exact fun h => hready (List.cons.inj h).1
    · exact fun h => hinterrupt (List.cons.inj h).1
    · decide +kernel

/-- The words of the tables that are printed one after the other. -/
def allWords (l : List Snapshot) : List (List (List UInt8)) :=
  (l.flatMap fun t => words (ascii "********************************** ") :: headline :: t.body) ++ [[]]

theorem allWords_cons (t : Snapshot) (l : List Snapshot) : allWords (t :: l) =
    words (ascii "********************************** ") :: headline :: (t.body ++ allWords l) := by
  rw [allWords, allWords, List.flatMap_cons, List.append_assoc]
  rfl

/-- The tables that have been printed one after the other. -/
theorem map_words_text (l : List Snapshot) :
    ((l.flatMap text).splitOnP (· == newline)).map words =
      allWords l := by
  have htext : l.flatMap text = (l.flatMap lines).flatMap (· ++ [newline]) := by
    rw [List.flatMap_assoc]
    rfl
  have hlines : ∀ line ∈ l.flatMap lines, ∀ c ∈ line, (c == newline) = false := fun line hline c hc => by
    obtain ⟨t, -, ht⟩ := List.mem_flatMap.1 hline
    exact beq_eq_false_iff_ne.2 fun h => t.newline_not_mem_lines line ht (h ▸ hc)
  rw [htext, splitOnP_flatMap hlines (beq_self_eq_true newline), List.map_append, List.map_flatMap]
  exact congrArg (· ++ [[]]) (List.flatMap_congr fun t _ => t.map_words_lines)

/-- Splitting at the headlines, with some lines before the next table. -/
theorem splitOnP_headline (l : List Snapshot) {before : List (List (List UInt8))}
    (hbefore : ∀ line ∈ before, (line == headline) = false) :
    ∃ rest chunks, (before ++ allWords l).splitOnP (· == headline) = (before ++ rest) :: chunks ∧
      chunks.map ofWords = l := by
  induction l generalizing before with
  | nil =>
    refine ⟨[[]], [], List.splitOnP_eq_singleton fun line hline => ?_, rfl⟩
    rcases List.mem_append.1 hline with hline | hline
    · exact hbefore line hline
    · obtain rfl := List.mem_singleton.1 hline
      decide +kernel
  | cons t l ih =>
    obtain ⟨rest, chunks, hsplit, hchunks⟩ := ih t.headline_not_mem_body
    refine ⟨[words (ascii "********************************** ")], (t.body ++ rest) :: chunks, ?_, ?_⟩
    · have hstars : ∀ line ∈ before ++ [words (ascii "********************************** ")],
          (line == headline) = false := fun line hline => by
        rcases List.mem_append.1 hline with hline | hline
        · exact hbefore line hline
        · obtain rfl := List.mem_singleton.1 hline
          decide +kernel
      rw [allWords_cons, List.append_cons, List.splitOnP_append_cons_of_forall_mem hstars headline (beq_self_eq_true _),
        hsplit]
    · rw [List.map_cons, ofWords_body, hchunks]

end Snapshot

/-- **Tables read back**, any number of them. -/
theorem readTables_flatMap (l : List Snapshot) : readTables (l.flatMap Snapshot.text) = l := by
  obtain ⟨rest, chunks, hsplit, hchunks⟩ := Snapshot.splitOnP_headline l (List.forall_mem_nil _)
  rw [List.nil_append] at hsplit
  rw [readTables, Snapshot.map_words_text, hsplit]
  exact hchunks

/-! ## The text that is printed -/

/-- The integers that `printInteger` prints as numerals. -/
def IsPrintable (n : ℤ) : Prop := -2 ^ 31 < n ∧ n < 2 ^ 31

namespace Console

variable {c : Console} {raw : ℕ → UInt8}

theorem printf_printf (text text' : List UInt8) : (c.printf text).printf text' = c.printf (text ++ text') :=
  (List.foldl_append ..).symm

theorem printInteger_ofInt (h : IsPrintable n) : c.printInteger (.ofInt n) ⟨raw, 0⟩ = c.printf (numeralOf n) := by
  obtain ⟨hlt, hlt'⟩ := h
  have htoInt : (Int32.ofInt n).toInt = n := Int32.toInt_ofInt_of_le (by omega) (by omega)
  have hmin : Int32.minValue.toInt = -2 ^ 31 := rfl
  have hne : Int32.ofInt n ≠ Int32.minValue := fun h => by
    rw [h, hmin] at htoInt
    exact hlt.ne htoInt
  rw [c.printInteger_numeralOf hne, htoInt]

end Console

namespace TaskManager

/-- The integers of the table are printable. -/
structure Printable (s : TaskManager) : Prop where
  task : ∀ i < s.numTasks, IsPrintable (s.tasks i).pid ∧ IsPrintable (s.tasks i).ppid ∧
    IsPrintable (s.tasks i).priority ∧ IsPrintable (s.tasks i).arrivalOrder
  queue : ∀ i ∈ s.queue, IsPrintable (s.tasks i).pid
  interruptNum : IsPrintable s.interruptNumAfterCollatz

theorem printProcessInfo_eq {raw : ℕ → UInt8} {c : Console} {t : Task} (hpid : IsPrintable t.pid)
    (hppid : IsPrintable t.ppid) (hpriority : IsPrintable t.priority) (harrival : IsPrintable t.arrivalOrder) :
    printProcessInfo raw c t = c.printf (t.row.line ++ [newline]) := by
  simp only [printProcessInfo, Console.printInteger_ofInt hpid, Console.printInteger_ofInt hppid,
    Console.printInteger_ofInt hpriority, Console.printInteger_ofInt harrival, Console.printf_printf]
  rfl

/-- `PrintProcessTable` prints the text of the table. -/
theorem printProcessTable_eq {s : TaskManager} (h : s.Printable) (raw : ℕ → UInt8) (c : Console) :
    s.printProcessTable raw c = c.printf s.snapshot.text := by
  have hrows : ∀ (l : List ℕ) (c : Console), (∀ i ∈ l, i < s.numTasks) →
      l.foldl (fun c i => printProcessInfo raw c (s.tasks i)) c =
        c.printf ((l.map fun i => (s.tasks i).row.line).flatMap (· ++ [newline])) := by
    intro l
    induction l with
    | nil => exact fun c _ => rfl
    | cons i l ih =>
      intro c hl
      obtain ⟨hpid, hppid, hpriority, harrival⟩ := h.task i (hl i List.mem_cons_self)
      rw [List.foldl_cons, printProcessInfo_eq hpid hppid hpriority harrival,
        ih _ fun j hj => hl j (List.mem_cons_of_mem _ hj), Console.printf_printf]
      rfl
  have hqueue : ∀ (l : List ℕ) (c : Console), (∀ i ∈ l, IsPrintable (s.tasks i).pid) →
      l.foldl (fun c i => (c.printInteger (.ofInt (s.tasks i).pid) ⟨raw, 0⟩).printf (ascii " ")) c =
        c.printf ((l.map fun i => (s.tasks i).pid).flatMap fun n => numeralOf n ++ [space]) := by
    intro l
    induction l with
    | nil => exact fun c _ => rfl
    | cons i l ih =>
      intro c hl
      rw [List.foldl_cons, Console.printInteger_ofInt (hl i List.mem_cons_self), Console.printf_printf,
        ih _ fun j hj => hl j (List.mem_cons_of_mem _ hj), Console.printf_printf]
      rfl
  rw [printProcessTable, hrows _ _ fun i hi => List.mem_range.1 hi, hqueue _ _ h.queue,
    Console.printInteger_ofInt h.interruptNum]
  have hstars : ascii "********************************** \n" =
    ascii "********************************** " ++ [newline] := rfl
  have hheadline : ascii "PID PPID   State   Priority   Arrival Order \n" =
    ascii "PID PPID   State   Priority   Arrival Order " ++ [newline] := rfl
  have hend : ascii "\n" = [newline] := rfl
  simp only [Console.printf_printf, Snapshot.text, Snapshot.lines, snapshot, List.map_map, List.flatMap_append,
    List.flatMap_cons, List.flatMap_nil, List.append_nil, List.append_assoc, hstars, hheadline, hend]
  rfl

end TaskManager

end GtuOs
