import Stencil.Render.Error
/-!
# Sink — where rendered bytes go

A sink has a state and takes byte strings one after the other, each as a whole or not.  `Sink.memory` takes everything.

A `Writer` takes what it is offered in parts: as many bytes off the front as it likes, or none.  Offering it the rest
again and again makes a sink of it (`Writer.writeAll`).  `Sink.bounded` is made so of a writer with room for a fixed number
of bytes: it takes the part of a write that fits, and refuses what is offered when no room is left.
-/
namespace Stencil

/-- A way to take byte strings: the state after a write, and the failure if not all of it was taken. -/
structure Sink (σ : Type) where
  write : σ → Bytes → σ × Option SinkFailure

/-- Bytes that have been written, in pieces, the latest first. -/
structure Written where
  pieces : List Bytes
deriving Repr

namespace Written

def nothing : Written := ⟨[]⟩

def bytes (w : Written) : Bytes := w.pieces.reverse.flatten

def add (w : Written) (s : Bytes) : Written := ⟨s :: w.pieces⟩

end Written

namespace Sink

def memory : Sink Written := ⟨fun w s => (w.add s, none)⟩

end Sink

/-- A way to take bytes in parts: the state after an offer, and how many bytes of it have been taken, or why none. -/
structure Writer (σ : Type) where
  offer : σ → Bytes → σ × Except SinkFailure Nat

namespace Writer

/-- Offers bytes until all are taken; no offer is made where nothing is left.  A writer that takes none is full. -/
def writeAll {σ : Type} (w : Writer σ) (st : σ) : Bytes → σ × Option SinkFailure
  | [] => (st, none)
  | b :: r =>
    match w.offer st (b :: r) with
    | (st, .ok 0) => (st, some .full)
    | (st, .ok (n + 1)) => writeAll w st (r.drop n)
    | (st, .error failure) => (st, some failure)
termination_by s => s.length
decreasing_by simp only [List.length_drop, List.length_cons]; omega

def refuse : SinkFailure → Except SinkFailure Nat
  | .closed => .error .closed
  | .full => .ok 0

def limited (failure : SinkFailure) : Writer (Nat × Written) :=
  ⟨fun st s =>
    if st.1 = 0 then (st, refuse failure)
    else ((st.1 - s.length, st.2.add (s.take st.1)), .ok (min st.1 s.length))⟩

end Writer

/-- The sink that takes as many bytes as there is room for, and then fails in the given way. -/
def Sink.bounded (failure : SinkFailure) : Sink (Nat × Written) := ⟨(Writer.limited failure).writeAll⟩

end Stencil
