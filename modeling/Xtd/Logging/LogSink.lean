import Xtd.Logging.SinksOpts
import Xtd.Posix.Calls

/-!
# The text sinks

`log_sink.h`: a message of a sufficient level becomes a line, and `write_to_output` hands the lines over to a descriptor.
The calendar of the C library is a parameter.
-/

namespace Xtd

open Concurrency Posix

/-- `log_sink_opts` without `use_structured_log`, which nothing reads. -/
structure LogSinkOpts where
  minLogLevel : LogLevel := .information
  fd : Fd := 1
  useLocalTime : Bool := true
  useColors : Bool := true
  flushOnWrite : Bool := true

/-! ### Lines -/

/-- The calendar: `gmtime_r` and `localtime_r`, which may fail, `strftime`, and the broken-down time of `tm = \x7b\x7d`. -/
structure Calendar where
  Tm : Type
  zero : Tm
  gmtime : Int → Option Tm
  localtime : Int → Option Tm
  strftime : List Byte → Tm → List Byte

/-- `get_timestamp`: date and time, microseconds and time zone. -/
def getTimestamp (c : Calendar) (message : LogMessage) (useLocalTime : Bool) : List Byte × Int × List Byte :=
  let time := message.timestamp.tdiv 1000000000
  let tm := ((if useLocalTime then c.localtime else c.gmtime) time).getD c.zero
  let buffer := c.strftime (ascii "%Y-%m-%dT%H:%M:%S") tm
  let microseconds := (message.timestamp.tdiv 1000).tmod 1000000
  let tz :=
    if useLocalTime then
      let tz := c.strftime (ascii "%z") tm
      if tz.length = 5 then tz.take 3 ++ ascii ":" ++ tz.drop 3 else tz
    else ascii "Z"
  (buffer, microseconds, tz)

/-- A number under `\x7b:06\x7d`: the zeros come behind the sign. -/
def padSix (n : Int) : List Byte :=
  let digits := ascii (toString n.natAbs)
  if n < 0 then ascii "-" ++ List.replicate (5 - digits.length) 48 ++ digits
  else List.replicate (6 - digits.length) 48 ++ digits

def plainLevelStrings : LogLevel → List Byte
  | .trace => ascii "TRACE"
  | .debug => ascii "DEBUG"
  | .information => ascii "INFO."
  | .warning => ascii "WARN."
  | .error => ascii "ERROR"
  | .critical => ascii "FATAL"

def coloredLevelStrings : LogLevel → List Byte
  | .trace => ascii "\x1b[90mTRACE\x1b[0m"
  | .debug => ascii "\x1b[36mDEBUG\x1b[0m"
  | .information => ascii "\x1b[32mINFO.\x1b[0m"
  | .warning => ascii "\x1b[33mWARN.\x1b[0m"
  | .error => ascii "\x1b[31mERROR\x1b[0m"
  | .critical => ascii "\x1b[35mFATAL\x1b[0m"

/-- A call of `write_to_output`. -/
structure Output where
  fd : Fd
  data : List Byte
  flush : Bool

namespace LogSinkOpts

/-- What `write_message_log` formats. -/
def format (o : LogSinkOpts) (c : Calendar) (message : LogMessage) : List Byte :=
  let (dateTime, us, tz) := getTimestamp c message o.useLocalTime
  let level := if o.useColors then coloredLevelStrings message.level else plainLevelStrings message.level
  ascii "[" ++ dateTime ++ ascii "." ++ padSix us ++ tz ++ ascii "] " ++ level ++
    ascii " <" ++ message.fileName ++ ascii ":" ++ ascii (toString message.line) ++ ascii "> " ++
    message.formattedMessage ++
    match message.exception with
    | none => ascii "\n"
    | some ex => ascii "\n    -> [Exception] " ++ ex.type ++ ascii ": " ++ ex.message ++ ascii "\n"

/-- `log_sink::write`. -/
def write (o : LogSinkOpts) (c : Calendar) (message : LogMessage) : Option Output :=
  if message.level.lt o.minLogLevel then none else some ⟨o.fd, o.format c message, o.flushOnWrite⟩

end LogSinkOpts

/-! ### `write_to_output` -/

/-- Where a sequence of calls of `write_to_output` is: at `write` with the data that is left, or at `fsync`. -/
inductive OutputStage
  | writing (output : Output) (rest : List Byte) (later : List Output)
  | flushing (output : Output) (later : List Output)
  | finished

namespace OutputStage

/-- The next call of `write_to_output`. -/
def start : List Output → OutputStage
  | [] => .finished
  | output :: later =>
    if output.data ≠ [] then .writing output output.data later
    else if output.flush then .flushing output later
    else start later

/-- The test of the loop, and what follows it. -/
def loop (output : Output) (rest : List Byte) (later : List Output) : OutputStage :=
  if rest ≠ [] then .writing output rest later
  else if output.flush then .flushing output later
  else start later

def call : OutputStage → Option Call
  | writing output rest _ => some (.write output.fd rest)
  | flushing output _ => some (.fsync output.fd)
  | finished => none

def see : OutputStage → Answer → OutputStage
  | writing output rest later, .number written => loop output (rest.drop written) later
  | writing output rest later, .failed .EINTR => .writing output rest later
  | writing _ _ later, _ => start later
  | flushing _ later, _ => start later
  | finished, _ => .finished

end OutputStage

/-- `write_to_output`, one call after the other. -/
def writeToOutput : Client OutputStage Call Answer := ⟨OutputStage.call, OutputStage.see⟩

/-- Calls of `write` with the data that is left, up to `rest`: each took a part of it or was interrupted. -/
inductive Output.Writes (output : Output) : List (Call × Answer) → List Byte → Prop
  | start : Output.Writes output [] output.data
  | took {tr : List (Call × Answer)} {rest : List Byte} (written : Nat) (h : Output.Writes output tr rest)
      (hrest : rest ≠ []) : Output.Writes output (tr ++ [(.write output.fd rest, .number written)]) (rest.drop written)
  | interrupted {tr : List (Call × Answer)} {rest : List Byte} (h : Output.Writes output tr rest) (hrest : rest ≠ []) :
      Output.Writes output (tr ++ [(.write output.fd rest, .failed .EINTR)]) rest

/-- What was handed over and what is left make up the data. -/
theorem Output.Writes.output_append {output : Output} {tr : List (Call × Answer)} {rest : List Byte}
    (h : output.Writes tr rest) : Posix.output tr ++ rest = output.data := by
  induction h with
  | start => rfl
  | @took tr rest written _ _ ih =>
    have htake : rest.take written ++ rest.drop written = rest := List.take_append_drop written rest
    rw [Posix.output_append, output_singleton, List.append_assoc, ← ih]
    exact congrArg _ htake
  | interrupted _ _ ih =>
    rw [Posix.output_append, output_singleton, ← ih]
    exact congrArg (· ++ _) (List.append_nil _)

/-- The calls of one `write_to_output`: the data is written until nothing is left, and the descriptor is flushed if the
sink asks for it; or the first `write` that fails other than by an interruption ends it. -/
inductive Written (output : Output) : List (Call × Answer) → Prop
  | whole (tr : List (Call × Answer)) (h : output.Writes tr []) (hflush : output.flush = false) : Written output tr
  | flushed (tr : List (Call × Answer)) (r : Answer) (h : output.Writes tr []) (hflush : output.flush = true) :
      Written output (tr ++ [(.fsync output.fd, r)])
  | failed (tr : List (Call × Answer)) (rest : List Byte) (error : Errno) (h : output.Writes tr rest) (hrest : rest ≠ [])
      (herror : error ≠ .EINTR) : Written output (tr ++ [(.write output.fd rest, .failed error)])

/-- The calls `tr` so far, split: those of the outputs that are done, and those of the one under way. -/
inductive Outputs (all : List Output) (tr : List (Call × Answer)) : OutputStage → Prop
  | writing (done : List Output) (output : Output) (later : List Output) (pieces : List (List (Call × Answer)))
      (current : List (Call × Answer)) (rest : List Byte) (hall : all = done ++ output :: later)
      (htr : tr = pieces.flatten ++ current) (hdone : List.Forall₂ Written done pieces)
      (hcurrent : output.Writes current rest) (hrest : rest ≠ []) : Outputs all tr (.writing output rest later)
  | flushing (done : List Output) (output : Output) (later : List Output) (pieces : List (List (Call × Answer)))
      (current : List (Call × Answer)) (hall : all = done ++ output :: later)
      (htr : tr = pieces.flatten ++ current) (hdone : List.Forall₂ Written done pieces)
      (hcurrent : output.Writes current []) (hflush : output.flush = true) : Outputs all tr (.flushing output later)
  | finished (pieces : List (List (Call × Answer))) (htr : tr = pieces.flatten) (hdone : List.Forall₂ Written all pieces) :
      Outputs all tr .finished

variable {all done later : List Output} {output : Output} {tr current : List (Call × Answer)}
  {pieces : List (List (Call × Answer))} {o o₀ : Os} {g : OutputStage}

private theorem done_concat (hdone : List.Forall₂ Written done pieces) (hw : Written output current) :
    List.Forall₂ Written (done ++ [output]) (pieces ++ [current]) :=
  List.rel_append hdone (.cons hw .nil)

/-- The outputs still to come are taken up: those without data are done at once. -/
private theorem outputs_start (hall : all = done ++ later) (htr : tr = pieces.flatten)
    (hdone : List.Forall₂ Written done pieces) : Outputs all tr (OutputStage.start later) := by
  induction later generalizing done pieces with
  | nil =>
    rw [List.append_nil] at hall
    subst hall
    exact .finished pieces htr hdone
  | cons output later ih =>
    have hnone : tr = pieces.flatten ++ [] := by rw [htr, List.append_nil]
    unfold OutputStage.start
    by_cases hdata : output.data = []
    · have hempty : output.Writes [] [] := by
        have hstart : output.Writes [] output.data := .start
        rwa [hdata] at hstart
      rw [if_neg (not_not_intro hdata)]
      by_cases hflush : output.flush = true
      · rw [if_pos hflush]
        exact .flushing done output later pieces [] hall hnone hdone hempty hflush
      · rw [if_neg hflush]
        have hw : Written output [] := .whole [] hempty (by simpa using hflush)
        exact ih (by simp [hall]) (by simp [htr]) (done_concat hdone hw)
    · rw [if_pos hdata]
      exact .writing done output later pieces [] output.data hall hnone hdone .start hdata

/-- After a call of `write` with the data `rest` left. -/
private theorem outputs_loop {rest : List Byte} (hall : all = done ++ output :: later)
    (htr : tr = pieces.flatten ++ current) (hdone : List.Forall₂ Written done pieces)
    (hcurrent : output.Writes current rest) : Outputs all tr (OutputStage.loop output rest later) := by
  unfold OutputStage.loop
  by_cases hrest : rest = []
  · rw [if_neg (not_not_intro hrest)]
    rw [hrest] at hcurrent
    by_cases hflush : output.flush = true
    · rw [if_pos hflush]
      exact .flushing done output later pieces current hall htr hdone hcurrent hflush
    · rw [if_neg hflush]
      have hw : Written output current := .whole current hcurrent (by simpa using hflush)
      exact outputs_start (by simp [hall]) (by simp [htr]) (done_concat hdone hw)
  · rw [if_pos hrest]
    exact .writing done output later pieces current rest hall htr hdone hcurrent hrest

private theorem outputs_step {k : Call} {r : Answer} {o' : Os} (h : Outputs all tr g) (hk : g.call = some k)
    (hr : os.answer o k r = some o') : Outputs all (tr ++ [(k, r)]) (g.see r) := by
  cases h with
  | writing done output later pieces current rest hall htr hdone hcurrent hrest =>
    cases hk
    have htr' : tr ++ [(.write output.fd rest, r)] = pieces.flatten ++ (current ++ [(.write output.fd rest, r)]) := by
      rw [htr, List.append_assoc]
    cases r with
    | number written => exact outputs_loop hall htr' hdone (.took written hcurrent hrest)
    | failed e =>
      by_cases he : e = .EINTR
      · subst he
        exact .writing done output later pieces _ rest hall htr' hdone (.interrupted hcurrent hrest) hrest
      · have hw : Written output (current ++ [(.write output.fd rest, .failed e)]) :=
          .failed current rest e hcurrent hrest he
        have hsee : (OutputStage.writing output rest later).see (.failed e) = .start later := by
          cases e with
          | EINTR => exact absurd rfl he
          | _ => rfl
        rw [hsee]
        refine outputs_start (by simp [hall]) ?_ (done_concat hdone hw)
        rw [htr', List.flatten_append, List.flatten_singleton]
    | bytes data => exact absurd (respond_of_answer hr).2 (by simp [Os.respond])
    | addresses list => exact absurd (respond_of_answer hr).2 (by simp [Os.respond])
  | flushing done output later pieces current hall htr hdone hcurrent hflush =>
    cases hk
    have hw : Written output (current ++ [(.fsync output.fd, r)]) := .flushed current r hcurrent hflush
    refine outputs_start (by simp [hall]) ?_ (done_concat hdone hw)
    rw [htr, List.flatten_append, List.flatten_singleton, List.append_assoc]
  | finished => cases hk

theorem outputs_of_exec (h : (writeToOutput.against os).Exec Machine.Any (.start all, o₀) tr (g, o)) :
    Outputs all tr g := by
  refine Client.invariant (I := fun tr g _ => Outputs all tr g) h ?_ ?_
  · exact outputs_start (List.nil_append all).symm rfl .nil
  intro tr g o k r o' hI hk hr
  exact outputs_step hI hk hr

/-! ### How long it takes -/

/-- A `write` that was interrupted or took nothing is called again. -/
def repeated : Call × Answer → Nat
  | (.write _ _, .failed .EINTR) | (.write _ _, .number 0) => 1
  | _ => 0

/-- One byte at a time, and a flush. -/
def bytesAndFlush (outputs : List Output) : Nat := (outputs.map fun output => output.data.length + 1).sum

def OutputStage.left : OutputStage → Nat
  | writing _ rest later => rest.length + 1 + bytesAndFlush later
  | flushing _ later => 1 + bytesAndFlush later
  | finished => 0

private theorem left_start (later : List Output) : (OutputStage.start later).left ≤ bytesAndFlush later := by
  induction later with
  | nil => exact Nat.le_refl _
  | cons output later ih =>
    have hcons : bytesAndFlush (output :: later) = output.data.length + 1 + bytesAndFlush later := by
      simp [bytesAndFlush]
    unfold OutputStage.start
    rw [hcons]
    by_cases hdata : output.data = []
    · rw [if_neg (not_not_intro hdata)]
      by_cases hflush : output.flush = true
      · rw [if_pos hflush]
        show 1 + bytesAndFlush later ≤ _
        omega
      · rw [if_neg hflush]
        omega
    · rw [if_pos hdata]
      exact Nat.le_refl _

private theorem left_loop (output : Output) (rest : List Byte) (later : List Output) :
    (OutputStage.loop output rest later).left ≤ rest.length + 1 + bytesAndFlush later := by
  have hstart := left_start later
  unfold OutputStage.loop
  by_cases hrest : rest = []
  · rw [if_neg (not_not_intro hrest)]
    by_cases hflush : output.flush = true
    · rw [if_pos hflush]
      show 1 + bytesAndFlush later ≤ _
      omega
    · rw [if_neg hflush]
      omega
  · rw [if_pos hrest]
    exact Nat.le_refl _

private theorem left_step {k : Call} {r : Answer} {o' : Os} (hk : g.call = some k) (hr : os.answer o k r = some o') :
    (g.see r).left + 1 ≤ g.left + repeated (k, r) := by
  cases g with
  | finished => cases hk
  | flushing output later =>
    have hstart := left_start later
    show (OutputStage.start later).left + 1 ≤ 1 + bytesAndFlush later + _
    omega
  | writing output rest later =>
    cases hk
    have hstart := left_start later
    cases r with
    | number written =>
      obtain ⟨hle, -⟩ := le_of_transfer (.inl rfl) hr
      have hloop := left_loop output (rest.drop written) later
      rw [List.length_drop] at hloop
      show (OutputStage.loop output (rest.drop written) later).left + 1 ≤ rest.length + 1 + bytesAndFlush later + _
      cases written with
      | zero =>
        show _ ≤ _ + 1
        omega
      | succ n => omega
    | failed e =>
      by_cases he : e = .EINTR
      · subst he
        exact Nat.le_refl _
      · have hsee : (OutputStage.writing output rest later).see (.failed e) = .start later := by
          cases e with
          | EINTR => exact absurd rfl he
          | _ => rfl
        rw [hsee]
        show _ ≤ rest.length + 1 + bytesAndFlush later + _
        omega
    | bytes data => exact absurd (respond_of_answer hr).2 (by simp [Os.respond])
    | addresses list => exact absurd (respond_of_answer hr).2 (by simp [Os.respond])

/-- The calls of `write_to_output`, one after the other, whatever the system answers: each output that is done was handed
over in full and flushed if the sink asks for it, or was given up at the first `write` that failed; of the one under way
a beginning was handed over, no `write` of it failed; and there are no more calls than one for each byte, one for each
output and one for each `write` that was interrupted or took nothing. -/
theorem write_to_output_writes (h : (writeToOutput.against os).Exec Machine.Any (.start all, o₀) tr (g, o)) :
    ∃ done later pieces current, all = done ++ later ∧ tr = pieces.flatten ++ current ∧
      List.Forall₂ Written done pieces ∧
      (current ≠ [] → ∃ output rest, later.head? = some output ∧ output.Writes current rest ∧
        Posix.output current ++ rest = output.data) ∧
      (g = .finished → later = [] ∧ current = []) ∧
      tr.length ≤ bytesAndFlush all + (tr.map repeated).sum := by
  have hlen : tr.length + g.left ≤ (OutputStage.start all).left + (tr.map repeated).sum :=
    Client.length_le h (fun g o k r o' hk hr => left_step hk hr)
  have hstart := left_start all
  have hbound : tr.length ≤ bytesAndFlush all + (tr.map repeated).sum := by omega
  cases outputs_of_exec h with
  | writing done output later pieces current rest hall htr hdone hcurrent hrest =>
    exact ⟨done, output :: later, pieces, current, hall, htr, hdone,
      fun _ => ⟨output, rest, rfl, hcurrent, hcurrent.output_append⟩, (fun hg => by cases hg), hbound⟩
  | flushing done output later pieces current hall htr hdone hcurrent hflush =>
    exact ⟨done, output :: later, pieces, current, hall, htr, hdone,
      fun _ => ⟨output, [], rfl, hcurrent, hcurrent.output_append⟩, (fun hg => by cases hg), hbound⟩
  | finished pieces htr hdone =>
    exact ⟨all, [], pieces, [], by simp, by simp [htr], hdone, fun hne => absurd rfl hne, fun _ => ⟨rfl, rfl⟩, hbound⟩

/-- A line that is to be flushed, and one that is not. -/
def twoOutputs : List Output := [⟨1, [65, 66, 10], true⟩, ⟨2, [67, 10], false⟩]

/-- The first line is handed over in two parts with an interruption between them; the second fails behind its first byte. -/
def interruptedThenFull : List Answer :=
  [.number 2, .failed .EINTR, .number 1, .number 0, .number 1, .failed (.other 28)]

/-- The standard descriptors are open. -/
def threeOpen : Os := ⟨fun fd => if fd < 3 then some O_RDWR else none, 0⟩

private def OutputStage.isFinished (g : OutputStage) : Bool := g.call.isNone

theorem write_to_output_writes_interruptedThenFull :
    ∃ tr o, (writeToOutput.against os).Exec Machine.Any (.start twoOutputs, threeOpen) tr (.finished, o) ∧
      Posix.output tr = [65, 66, 10, 67] ∧
      (∃ pieces, tr = pieces.flatten ∧ List.Forall₂ Written twoOutputs pieces) ∧ 6 ≤ 7 + (tr.map repeated).sum := by
  obtain ⟨tr, ⟨g, o⟩, h, hc⟩ := Machine.exists_exec_of_run (writeToOutput.against os) Machine.Any
    (.start twoOutputs, threeOpen) (fun _ _ => true) interruptedThenFull
    (fun tr x => decide (x.1.isFinished = true ∧ tr.length = 6 ∧ Posix.output tr = [65, 66, 10, 67]))
    (fun _ _ _ => trivial) (by decide)
  obtain ⟨hfin, hlen, hout⟩ := of_decide_eq_true hc
  have hg : g = .finished := by
    cases g with
    | finished => rfl
    | _ => cases hfin
  subst hg
  obtain ⟨done, later, pieces, current, hall, htr, hdone, -, hend, hbound⟩ := write_to_output_writes h
  obtain ⟨rfl, rfl⟩ := hend rfl
  rw [List.append_nil] at hall htr
  rw [hlen] at hbound
  exact ⟨tr, o, h, hout, ⟨pieces, htr, by rw [hall]; exact hdone⟩, hbound⟩

end Xtd
