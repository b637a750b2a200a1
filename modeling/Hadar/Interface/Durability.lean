import Hadar.Interface.Calls

/-!
# The log over many processes

Processes that serve the log one after another over one directory and one engine, each from a
restart to a crash, and what is owed to their callers all the same: every process is linearizable
from the mutations the one before it left, and these are what that process had been seen to do and
a part of what it had not yet answered for.
-/

set_option autoImplicit false

namespace Hadar.Wal

open Hadar.Lib Hadar.Storage Hadar.Mvcc

/-- Writes of a process that were called and that no effect says succeeded. Their callers were told
nothing, or else that there is nobody left to tell them. -/
structure Unanswered (history : List (Mark Ask Outcome)) (order : List (Effect Ask Outcome))
    (writes : List (ℕ × List Mutation)) : Prop where
  once : (writes.map (·.1)).Nodup
  called : ∀ p ∈ writes, .called p.1 (.write p.2) ∈ history
  unsettled : ∀ p ∈ writes, ∀ e ∈ order, e.id = p.1 → ∀ revisions, e.result ≠ .write (.ok revisions)
  untold : ∀ p ∈ writes, ∀ result, .returned p.1 result ∈ history →
    result = .write (.error .shutdown)

/-- What some processes left, as far as it can be told from what was seen of them. A process that
stops may leave the writes it was at in part, from the first mutation on. -/
inductive Durable : List (List (Mark Ask Outcome)) → List Mutation → Prop where
  | fresh : Durable [] []
  | next {histories : List (List (Mark Ask Outcome))} {base final part : List Mutation}
    {history : List (Mark Ask Outcome)} {order : List (Effect Ask Outcome)}
    {writes : List (ℕ × List Mutation)} (before : Durable histories base)
    (linear : Linearization (logObject base) history order)
    (runs : (logObject base).Runs base order final) (unanswered : Unanswered history order writes)
    (kept : part <+: writes.flatMap (·.2)) : Durable (histories ++ [history]) (final ++ part)

variable [Crc32]

/-- A directory and an engine that some processes used one after another, each until it was
stopped by a crash, with what was seen of those that were opened. -/
inductive Deployed (options : Options) (checkpointInterval : ℕ) :
    Disk → Engine → List (List (Mark Ask Outcome)) → Prop where
  | fresh : Deployed options checkpointInterval Disk.empty Engine.empty []
  | served {disk disk' : Disk} {engine engine' : Engine} {m : Disk × Engine}
    {histories : List (List (Mark Ask Outcome))} {history : List (Mark Ask Outcome)}
    {replies replies' : List Reply} {calls calls' : List Storage.Reply} {w : Writer}
    {spawned : Bool} {s : System}
    (before : Deployed options checkpointInterval disk engine histories)
    (opening : Obliging replies calls)
    (opened : (boot options).exec ({ disk with replies := replies },
      { engine with replies := calls }) = (.ok w, m))
    (serving : Obliging replies' calls')
    (ran : Interleaving checkpointInterval (System.opened w replies' calls' spawned) history s)
    (onDisk : s.thread.writer.host.disk.Crashed disk')
    (inEngine : EngineCrashed s.thread.writer.host.store.engine engine') :
    Deployed options checkpointInterval disk' engine' (histories ++ [history])
  | cutOpening {disk disk' : Disk} {engine engine' : Engine} {m : Disk × Engine}
    {histories : List (List (Mark Ask Outcome))} {replies : List Reply}
    {calls : List Storage.Reply} {stop : Stop Error}
    (before : Deployed options checkpointInterval disk engine histories)
    (opening : Obliging replies calls)
    (cut : (boot options).exec ({ disk with replies := replies },
      { engine with replies := calls }) = (.error stop, m))
    (dead : stop = .panic ∨ stop = .crash) (onDisk : m.1.Crashed disk')
    (inEngine : EngineCrashed m.2 engine') :
    Deployed options checkpointInterval disk' engine' histories

end Hadar.Wal
