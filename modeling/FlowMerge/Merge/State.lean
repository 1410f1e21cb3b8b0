namespace FlowMerge

/-- Where a node stands in a merge. -/
inductive MergeState where
  | unseen
  | noChange
  | moved
  | updated
  | moveConflict
  | updateConflict
  | inserted
  | deleted
  | deleteConflict
deriving DecidableEq, Inhabited, Repr

namespace MergeState

def name : MergeState → String
  | unseen => "UNSEEN"
  | noChange => "MATCHED_NO_CHANGE"
  | moved => "MATCHED_MOVED"
  | updated => "MATCHED_UPDATED"
  | moveConflict => "MATCHED_MOVE_CONFLICT"
  | updateConflict => "MATCHED_UPDATE_CONFLICT"
  | inserted => "UNMATCHED_INSERTED"
  | deleted => "UNMATCHED_DELETED"
  | deleteConflict => "UNMATCHED_DELETE_CONFLICT"

/-- Conflicts weigh more than changes, and changes more than none. -/
def rank : MergeState → Nat
  | unseen => 0
  | noChange => 1
  | moved | updated | inserted | deleted => 2
  | moveConflict | updateConflict | deleteConflict => 3

def isConflict (s : MergeState) : Bool := s.rank == 3

def settled : MergeState → MergeState
  | moveConflict => moved
  | updateConflict => updated
  | deleteConflict => deleted
  | s => s

def weightier (s t : MergeState) : MergeState := if s.rank < t.rank then t else s

theorem isConflict_settled (s : MergeState) : s.settled.isConflict = false := by cases s <;> rfl

end MergeState

end FlowMerge
