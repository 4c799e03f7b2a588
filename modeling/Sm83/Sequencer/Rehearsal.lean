import Sm83.Sequencer.Loop

/-!
A rehearsed run. Requests come from a script, whose next batch is sent as a whole each time the sequencer has
nothing to do, and from cues: the batch for the n-th decoded instruction is sent right after its note, the batch
for the n-th commit right after that event. When the script is used up the sequencer is shut down.
-/

set_option autoImplicit false

namespace Sm83

/-- What a waiting client asks of the published status. -/
structure Expectation where
  mode : Option Mode := none
  committed : Option Nat := none
  pc : Option Word := none
  deriving DecidableEq, Repr

def Expectation.met (e : Expectation) (s : Status) : Bool :=
  e.mode.all (· == s.mode) && e.committed.all (· ≤ s.committed) && e.pc.all (· == s.regs.pc)

inductive Scene where
  | batch (requests : List Request)
  | ask (addresses : List Word)
  | await (expected : Expectation)
  deriving DecidableEq, Repr

def Scene.size : Scene → Nat
  | .batch rs => rs.length
  | .ask as => as.length
  | .await _ => 0

/-- A line of the record; `idle` tells the published status when the sequencer has come to nothing to do. -/
inductive Line where
  | event (e : Event)
  | idle (s : Status)
  | awaited (s : Option Status)
  deriving DecidableEq, Repr

/-- Batches by the number of the decoded instruction or commit that they follow. From commit `limit` on, a stop
follows every commit. -/
structure Cues where
  atDecode : List (Nat × List Request) := []
  atCommit : List (Nat × List Request) := []
  limit : Nat := 64
  deriving Repr

structure Rehearsal (μ : Type) where
  loop : Loop μ
  scenes : List Scene
  cues : Cues
  decoded : Nat := 0
  commits : Nat := 0
  fresh : Bool := true

namespace Rehearsal

variable {μ : Type}

def follow (r : Rehearsal μ) : Event → Rehearsal μ
  | .note (.decoded _) =>
    let n := r.decoded + 1
    { r with decoded := n, loop := r.loop.send ((r.cues.atDecode.lookup n).getD []) }
  | .committed _ =>
    let n := r.commits + 1
    let last := if r.cues.limit ≤ n then [Request.stop] else []
    { r with commits := n, loop := r.loop.send ((r.cues.atCommit.lookup n).getD [] ++ last) }
  | _ => r

/-- What of the events goes on record: all but the remark that a query was taken. -/
def isRecorded : Event → Bool
  | .note (.taken (.queryBreakpoint _)) => false
  | _ => true

def advance [Bus μ] (r : Rehearsal μ) : Rehearsal μ × List Line :=
  if !r.loop.isBlocked then
    let (loop, es) := r.loop.turn
    (es.foldl follow { r with loop }, (es.filter isRecorded).map .event)
  else if r.fresh then ({ r with fresh := false }, [.idle r.loop.sequencer.published])
  else match r.scenes with
    | [] => ({ r with loop := r.loop.send [.shutdown] }, [])
    | .batch rs :: scenes => ({ r with scenes, fresh := true, loop := r.loop.send rs }, [])
    | .ask as :: scenes => ({ r with scenes, loop := r.loop.send (as.map .queryBreakpoint) }, [])
    | .await e :: scenes =>
      let s := r.loop.sequencer.published
      ({ r with scenes }, [.awaited (if e.met s then some s else none)])

def play [Bus μ] : Nat → Rehearsal μ → Array Line → Rehearsal μ × Array Line
  | 0, r, record => (r, record)
  | fuel + 1, r, record =>
    if r.loop.isGone then (r, record)
    else
      let (r, ls) := r.advance
      play fuel r (record ++ ls)

/-- Bounds the turns: each request is taken once, and each instruction is begun at most once for every commit,
request or end of a run. -/
def size (r : Rehearsal μ) : Nat :=
  let scenes := r.scenes.foldr (fun s n => s.size + 1 + n) 0
  let batches := (r.cues.atDecode ++ r.cues.atCommit).foldr (fun b n => b.2.length + n) 0
  r.cues.limit + scenes + batches + 4

def perform [Bus μ] (r : Rehearsal μ) : Rehearsal μ × List Line :=
  let opened := #[Line.event (.note .opened)]
  let (r, record) := play (8 * r.size) r opened
  (r, record.toList)

end Rehearsal

end Sm83
