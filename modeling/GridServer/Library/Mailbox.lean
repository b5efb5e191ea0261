import Mathlib.Tactic.Common

namespace GridServer.Library

/-- A sender that writes to a connection, and keeps what it sends once it has heard that the
connection is gone. What it writes before it has heard so is lost. -/
structure Mailbox (α : Type) where
  sent : List α
  received : List α
  buffer : Option (List α)
  broken : Bool

namespace Mailbox
variable {α : Type} {m : Mailbox α}

/-- What was sent has been received in order, but for what is still kept. -/
def Kept (m : Mailbox α) : Prop := m.received ++ m.buffer.getD [] = m.sent

def post (m : Mailbox α) (as : List α) : Mailbox α :=
  { m with
    sent := m.sent ++ as
    received := m.received ++ if m.buffer.isNone && !m.broken then as else []
    buffer := m.buffer.map fun buffer => buffer ++ as }

def fail (m : Mailbox α) : Mailbox α := { m with broken := true }

def suspend (m : Mailbox α) : Mailbox α := { m with buffer := some [] }

/-- The sender is given another connection, and writes to it what it has kept. -/
def restore (m : Mailbox α) (broken : Bool) : Mailbox α :=
  { m with
    received := m.received ++ if broken then [] else m.buffer.getD []
    buffer := none
    broken := broken }

theorem Kept.post (h : m.Kept) (as : List α) (safe : m.buffer = none → m.broken = true → as = []) :
    (m.post as).Kept := by
  unfold Kept at h
  cases hb : m.buffer with
  | some buffer =>
    simp only [hb, Option.getD_some] at h
    simp [Kept, Mailbox.post, hb, ← h]
  | none =>
    simp only [hb, Option.getD_none, List.append_nil] at h
    cases hbroken : m.broken with
    | false => simp [Kept, Mailbox.post, hb, hbroken, h]
    | true => simp [Kept, Mailbox.post, hb, h, safe hb hbroken]

theorem Kept.suspend (h : m.Kept) (empty : m.buffer.getD [] = []) : m.suspend.Kept := by
  unfold Kept at h
  rw [empty] at h
  exact h

theorem Kept.restore (h : m.Kept) (broken : Bool)
    (safe : broken = true → m.buffer.getD [] = []) : (m.restore broken).Kept := by
  unfold Kept at h
  cases broken with
  | false => simpa [Kept, Mailbox.restore] using h
  | true =>
    rw [safe rfl] at h
    simpa [Kept, Mailbox.restore] using h

end Mailbox
end GridServer.Library
