import RangeBearing.Estimate

/-!
# The newest unread estimate

A mailbox holds at most one estimate: publishing replaces an unread one, taking clears it.
-/

namespace RangeBearing

/-- room for one estimate -/
structure Mailbox where
  unread : Option Estimate
  deriving DecidableEq

namespace Mailbox

def empty : Mailbox := ⟨none⟩

def publish (_ : Mailbox) (e : Estimate) : Mailbox := ⟨some e⟩

/-- read and clear -/
def take (box : Mailbox) : Option Estimate × Mailbox := (box.unread, empty)

/-- read and leave unread -/
def peek (box : Mailbox) : Option Estimate := box.unread

end Mailbox

end RangeBearing
