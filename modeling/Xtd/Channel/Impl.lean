import Xtd.Concurrency.Monitor

/-!
# The channel

`channel_impl.h` as a monitor: a queue with an optional capacity, two condition variables and the pieces of `emplace`,
`read`, `wait_to_read`, `read_all` and `complete_writer` that run with the lock held.  The stop token of a call is asked
twice on the way through `internal_wait_to_write` and `internal_wait_to_read`; a stop request can come in between, so
there is a cut before the second question.  The calls are numbered and show what they do as events.
-/

namespace Xtd

open Concurrency

inductive BlockStrategy
  | WAIT
  | TRY
  deriving DecidableEq

inductive ChannelReadErrors
  | requestCancelled
  | channelEmpty
  deriving DecidableEq

/-- The members of `channel` guarded by its mutex; the capacity is a parameter of the monitor. -/
structure Channel (α : Type) where
  queue : List α
  readWaiters : Nat
  writeWaiters : Nat
  writerCompleted : Bool

inductive ChannelCv
  | notFull
  | notEmpty
  deriving DecidableEq

/-- The operations of the two endpoints.  `push` and `emplace` are `emplace .WAIT`, `try_push` and `try_emplace` are
`emplace .TRY`; `read` and `try_read` differ in the same way. -/
inductive ChannelOp (α : Type)
  | emplace (strategy : BlockStrategy) (value : α) (token : Option Nat)
  | read (strategy : BlockStrategy) (token : Option Nat)
  | readAll (token : Option Nat)
  | waitToRead (token : Option Nat)
  | completeWriter
  | size

/-- What the calls of the channel show: `inserted` and `removed` when the queue changes, the others when they return. -/
inductive ChannelEvent (α : Type)
  | inserted (call : Nat) (value : α)
  | emplaceReturn (call : Nat) (result : Bool)
  | removed (call : Nat) (value : α)
  | readReturn (call : Nat) (strategy : BlockStrategy) (result : Except ChannelReadErrors α)
  | readAllReturn (call : Nat) (error : Option ChannelReadErrors)
  | waitReturn (call : Nat) (result : Bool)
  | writerCompleted (call : Nat)
  | sizeReturn (call : Nat) (size : Nat)

/-- Who has called `internal_wait_to_read`. -/
inductive Reading
  | read
  | readAll
  | waitToRead
  deriving DecidableEq

/-- The places at which a call holds or waits for the lock, with its local variables. -/
inductive ChannelLocal (α : Type)
  | emplaceTop (call : Nat) (strategy : BlockStrategy) (value : α) (token : Option Nat)
  | emplaceAfterWait (call : Nat) (value : α) (token : Option Nat)
  | emplaceCheck (call : Nat) (value : α) (token : Option Nat)
  | readAllTop (call : Nat) (token : Option Nat)
  | readTop (call : Nat) (kind : Reading) (token : Option Nat)
  | readAfterWait (call : Nat) (kind : Reading) (token : Option Nat)
  | readCheck (call : Nat) (kind : Reading) (token : Option Nat)
  | tryRead (call : Nat)
  | completeWriter (call : Nat)
  | size (call : Nat)

abbrev ChannelPiece (α : Type) := Piece (Channel α) (ChannelLocal α) ChannelCv (ChannelEvent α)

namespace Channel

variable {α : Type}

def new : Channel α := ⟨[], 0, 0, false⟩

def full (capacity : Nat) (c : Channel α) : Bool := decide (capacity > 0) && decide (c.queue.length ≥ capacity)

def canRead (c : Channel α) : Bool := c.writerCompleted || !c.queue.isEmpty

def canWrite (capacity : Nat) (c : Channel α) : Bool := c.writerCompleted || !c.full capacity

/-! ### `emplace` -/

/-- `emplace` once it may insert. -/
def insert (c : Channel α) (call : Nat) (value : α) : ChannelPiece α :=
  ⟨{ c with queue := c.queue ++ [value] }, [.inserted call value],
    .release (if c.readWaiters ≠ 0 then [.one .notEmpty] else []) (.done [.emplaceReturn call true])⟩

/-- The result of `internal_wait_to_write` and what `emplace` makes of it. -/
def emplaceCheck (capacity : Nat) (c : Channel α) (call : Nat) (value : α) (stop : Bool) : ChannelPiece α :=
  if !stop && !c.writerCompleted && !c.full capacity then c.insert call value
  else ⟨c, [], .release [] (.done [.emplaceReturn call false])⟩

def emplaceAfterWait (capacity : Nat) (c : Channel α) (call : Nat) (value : α) (stop : Bool) : ChannelPiece α :=
  ({ c with writeWaiters := c.writeWaiters - 1 } : Channel α).emplaceCheck capacity call value stop

/-- `emplace`, up to the second question to the stop token. -/
def emplaceTop (capacity : Nat) (c : Channel α) (call : Nat) (strategy : BlockStrategy) (value : α)
    (token : Option Nat) (stop : Bool) : ChannelPiece α :=
  match strategy with
  | .WAIT =>
    if !stop && !c.writerCompleted && c.full capacity then
      ⟨{ c with writeWaiters := c.writeWaiters + 1 }, [], .wait .notFull (.emplaceAfterWait call value token)⟩
    else ⟨c, [], .hold (.emplaceCheck call value token)⟩
  | .TRY =>
    if c.writerCompleted || c.full capacity then ⟨c, [], .release [] (.done [.emplaceReturn call false])⟩
    else c.insert call value

/-! ### `read`, `wait_to_read` and `read_all` -/

/-- The front value moves into the result; `notify` is the answer of `m_write_waiters != 0`. -/
def remove (c : Channel α) (call : Nat) (value : α) (rest : List α) (k : After (ChannelLocal α) (ChannelEvent α)) :
    ChannelPiece α :=
  ⟨{ c with queue := rest }, [.removed call value],
    .release (if c.writeWaiters ≠ 0 then [.one .notFull] else []) k⟩

/-- A failed `internal_wait_to_read`. -/
def readFails (c : Channel α) (call : Nat) (kind : Reading) (error : ChannelReadErrors) : ChannelPiece α :=
  match kind with
  | .read => ⟨c, [], .release [] (.done [.readReturn call .WAIT (.error error)])⟩
  | .readAll => ⟨c, [], .release [] (.done [.readAllReturn call (some error)])⟩
  | .waitToRead => ⟨c, [], .release [] (.done [.waitReturn call false])⟩

/-- The result of `internal_wait_to_read` and what its callers make of it. -/
def readCheck (c : Channel α) (call : Nat) (kind : Reading) (token : Option Nat) (stop : Bool) : ChannelPiece α :=
  if stop then c.readFails call kind .requestCancelled
  else
    match c.queue with
    | [] => c.readFails call kind .channelEmpty
    | value :: rest =>
      match kind with
      | .read => c.remove call value rest (.done [.readReturn call .WAIT (.ok value)])
      | .readAll => c.remove call value rest (.again (.readAllTop call token))
      | .waitToRead => ⟨c, [], .release [] (.done [.waitReturn call true])⟩

def readAfterWait (c : Channel α) (call : Nat) (kind : Reading) (token : Option Nat) (stop : Bool) : ChannelPiece α :=
  ({ c with readWaiters := c.readWaiters - 1 } : Channel α).readCheck call kind token stop

/-- `internal_wait_to_read`, up to the second question to the stop token. -/
def readTop (c : Channel α) (call : Nat) (kind : Reading) (token : Option Nat) (stop : Bool) : ChannelPiece α :=
  if !stop && !c.writerCompleted && c.queue.isEmpty then
    ⟨{ c with readWaiters := c.readWaiters + 1 }, [], .wait .notEmpty (.readAfterWait call kind token)⟩
  else ⟨c, [], .hold (.readCheck call kind token)⟩

/-- The head of the loop of `read_all`.  Its stop token is asked before the lock is taken, so the answer may be
outdated: `seen` says whether a stop request that is there now was there then. -/
def readAllTop (c : Channel α) (call : Nat) (token : Option Nat) (stop seen : Bool) : ChannelPiece α :=
  if stop && seen then ⟨c, [], .release [] (.done [.readAllReturn call none])⟩
  else ⟨c, [], .hold (.readTop call .readAll token)⟩

def tryRead (c : Channel α) (call : Nat) : ChannelPiece α :=
  match c.queue with
  | [] => ⟨c, [], .release [] (.done [.readReturn call .TRY (.error .channelEmpty)])⟩
  | value :: rest => c.remove call value rest (.done [.readReturn call .TRY (.ok value)])

/-! ### `complete_writer` and `size` -/

def completeWriter (c : Channel α) (call : Nat) : ChannelPiece α :=
  ⟨{ c with writerCompleted := true }, [.writerCompleted call], .release [.all .notEmpty, .all .notFull] (.done [])⟩

def size (c : Channel α) (call : Nat) : ChannelPiece α :=
  ⟨c, [], .release [] (.done [.sizeReturn call c.queue.length])⟩

end Channel

/-! ### The monitor -/

def ChannelLocal.token {α : Type} : ChannelLocal α → Option Nat
  | emplaceTop _ _ _ token | emplaceAfterWait _ _ token | emplaceCheck _ _ token => token
  | readAllTop _ token | readTop _ _ token | readAfterWait _ _ token | readCheck _ _ token => token
  | tryRead _ | completeWriter _ | size _ => none

/-- Where a call comes to the lock first. -/
def ChannelOp.enter {α : Type} : ChannelOp α → Nat → ChannelLocal α
  | emplace strategy value token, call => .emplaceTop call strategy value token
  | read .WAIT token, call => .readTop call .read token
  | read .TRY _, call => .tryRead call
  | readAll token, call => .readAllTop call token
  | waitToRead token, call => .readTop call .waitToRead token
  | completeWriter, call => .completeWriter call
  | size, call => .size call

/-- The channel of the given capacity, where `0` stands for no bound. -/
def channel (α : Type) (capacity : Nat) :
    Monitor (Channel α) (ChannelOp α) (ChannelLocal α) ChannelCv Bool (ChannelEvent α) where
  enter op call := ([], some (op.enter call))
  token := ChannelLocal.token
  pred
    | .notEmpty, _, c => c.canRead
    | .notFull, _, c => c.canWrite capacity
  exec
    | .emplaceTop call strategy value token, c, stop, _ => c.emplaceTop capacity call strategy value token stop
    | .emplaceAfterWait call value _, c, stop, _ => c.emplaceAfterWait capacity call value stop
    | .emplaceCheck call value _, c, stop, _ => c.emplaceCheck capacity call value stop
    | .readAllTop call token, c, stop, seen => c.readAllTop call token stop seen
    | .readTop call kind token, c, stop, _ => c.readTop call kind token stop
    | .readAfterWait call kind token, c, stop, _ => c.readAfterWait call kind token stop
    | .readCheck call kind token, c, stop, _ => c.readCheck call kind token stop
    | .tryRead call, c, _, _ => c.tryRead call
    | .completeWriter call, c, _, _ => c.completeWriter call
    | .size call, c, _, _ => c.size call

abbrev ChannelState (τ α : Type) := State τ (Channel α) (ChannelLocal α) ChannelCv (ChannelEvent α)

abbrev ChannelAction (τ α : Type) := Action τ (ChannelOp α) Bool

end Xtd
