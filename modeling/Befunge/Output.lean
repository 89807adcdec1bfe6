/-! What the machine writes to: any sink that passes bytes on in order. The sink at hand keeps
them; it may have a limited capacity, and flushing it may fail from some length on. -/

namespace Befunge

class OutputSink (ω : Type) where
  /-- The bytes passed on so far, the first one first. -/
  accepted : ω → List UInt8
  write : List UInt8 → ω → Except String Unit × ω
  flush : ω → Except String Unit × ω
  /-- A write that fails has passed on the bytes before the one that was turned down. -/
  accepted_write : ∀ bytes o, ∃ n, accepted (write bytes o).2 = accepted o ++ bytes.take n ∧
    ((write bytes o).1 = .ok () → bytes.length ≤ n)
  accepted_flush : ∀ o, accepted (flush o).2 = accepted o

def OutputSink.deliver {ω : Type} [OutputSink ω] (bytes : List UInt8) (o : ω) :
    Except String Unit × ω :=
  let sent := write bytes o
  match sent.1 with
  | .ok () => flush sent.2
  | .error cause => (.error cause, sent.2)

/-- How a full output turns down a byte. -/
inductive Refusal where
  | failing (cause : String)
  | acceptingNothing
deriving DecidableEq, Repr

def Refusal.cause : Refusal → String
  | .failing cause => cause
  | .acceptingNothing => "failed to write whole buffer"

/-- A number of bytes beyond which something fails. -/
structure Bound (α : Type) where
  bytes : Nat
  failure : α
deriving DecidableEq, Repr

structure Output where
  written : Array UInt8
  capacity : Option (Bound Refusal)
  /-- Flushing fails when more bytes than this have been written. -/
  delivery : Option (Bound String)
deriving DecidableEq, Repr

namespace Output

def unlimited : Output := ⟨#[], none, none⟩

def write (bytes : List UInt8) (o : Output) : Except String Unit × Output :=
  match o.capacity with
  | none => (.ok (), { o with written := o.written ++ bytes })
  | some c =>
    let room := c.bytes - o.written.size
    (if bytes.length ≤ room then .ok () else .error c.failure.cause,
      { o with written := o.written ++ bytes.take room })

def flush (o : Output) : Except String Unit :=
  match o.delivery with
  | none => .ok ()
  | some d => if o.written.size ≤ d.bytes then .ok () else .error d.failure

theorem written_write (bytes : List UInt8) (o : Output) :
    ∃ n, (o.write bytes).2.written.toList = o.written.toList ++ bytes.take n ∧
      ((o.write bytes).1 = .ok () → bytes.length ≤ n) := by
  cases h : o.capacity with
  | none => exact ⟨bytes.length, by simp [write, h]⟩
  | some c =>
    refine ⟨c.bytes - o.written.size, by simp [write, h], fun hw => ?_⟩
    simp only [write, h] at hw
    split at hw
    · assumption
    · contradiction

instance : OutputSink Output where
  accepted o := o.written.toList
  write := write
  flush o := (o.flush, o)
  accepted_write := written_write
  accepted_flush _ := rfl

end Output

end Befunge
