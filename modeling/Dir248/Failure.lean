/-!
# Why an operation fails

The causes an operation may report, the wording of each, and the numbered status a caller
without structured errors sees instead.

* **`Failure`**, **`Failure.message`** — the causes and their wording.
* **`Status`**, **`Failure.status`** — the numbered codes, and the code of each cause.
* **`Status.ofNumber?_number`** — a code is read back from its number.
-/

namespace Dir248

/-! ### Causes -/

/-- What is wrong with an argument. -/
inductive Complaint where
  | depth
  | nextHop
  | tableName
  | maxRules
  | groups
  | queueCapacity
  | reclaimThreshold
  | outPointer
  | stated (text : String)
deriving Repr, DecidableEq, Inhabited

/-- The wording of a complaint. -/
def Complaint.text : Complaint → String
  | depth => "depth must be in 1..=32"
  | nextHop => "next hop exceeds 24 bits"
  | tableName => "table name must be 1..=32 bytes"
  | maxRules => "max_rules must be non-zero"
  | groups => "number_groups exceeds 2^24"
  | queueCapacity => "defer queue capacity must be non-zero"
  | reclaimThreshold => "reclaim threshold exceeds defer queue capacity"
  | outPointer => "null out pointer"
  | stated text => text

/-- Why an operation failed. -/
inductive Failure where
  /-- A malformed depth, next hop, name, size or pointer. -/
  | invalidArgument (what : Complaint)
  /-- The name belongs to a registered table. -/
  | alreadyExists
  /-- No such table or rule. -/
  | notFound
  /-- The rule store, the groups or the reader slots are used up. -/
  | outOfSpace
  /-- The table already has a reclamation scheme. -/
  | alreadyBound
  /-- The defer queue is full and nothing in it may be freed yet. -/
  | reclamationUnavailable
  /-- The state of a table was left locked. -/
  | lock (reason : String)
deriving Repr, DecidableEq, Inhabited

/-- The wording of a failure. -/
def Failure.message : Failure → String
  | invalidArgument what => "invalid argument: " ++ what.text
  | alreadyExists => "a table with this name already exists"
  | notFound => "not found"
  | outOfSpace => "out of space"
  | alreadyBound => "reclamation already bound to this table"
  | reclamationUnavailable => "defer queue full and no group could be reclaimed"
  | lock reason => "lock error: " ++ reason

/-! ### Numbered codes -/

/-- The outcome of a call as one code. -/
inductive Status where
  | success
  | invalidArgument
  | alreadyExists
  | notFound
  | outOfSpace
  | alreadyBound
  | reclamationUnavailable
  | invalidHandle
  | utf8Error
  | lockFailed
  | unknown
deriving Repr, DecidableEq, Inhabited

namespace Status

/-- The number of a code. -/
def number : Status → Nat
  | success => 0
  | invalidArgument => 1
  | alreadyExists => 2
  | notFound => 3
  | outOfSpace => 4
  | alreadyBound => 5
  | reclamationUnavailable => 6
  | invalidHandle => 7
  | utf8Error => 8
  | lockFailed => 9
  | unknown => 255

/-- The code with a given number. -/
def ofNumber? : Nat → Option Status
  | 0 => success
  | 1 => invalidArgument
  | 2 => alreadyExists
  | 3 => notFound
  | 4 => outOfSpace
  | 5 => alreadyBound
  | 6 => reclamationUnavailable
  | 7 => invalidHandle
  | 8 => utf8Error
  | 9 => lockFailed
  | 255 => unknown
  | _ => none

theorem ofNumber?_number (s : Status) : ofNumber? s.number = some s := by
  cases s <;> rfl

/-- The name of a code. -/
def text : Status → String
  | success => "Success"
  | invalidArgument => "Invalid argument"
  | alreadyExists => "Already exists"
  | notFound => "Not found"
  | outOfSpace => "Out of space"
  | alreadyBound => "Reclamation already bound"
  | reclamationUnavailable => "Reclamation unavailable"
  | invalidHandle => "Invalid handle"
  | utf8Error => "UTF-8 conversion error"
  | lockFailed => "Lock failed"
  | unknown => "Unknown error"

/-- The name of a code as bytes behind which a zero byte ends the text. -/
def bytes (s : Status) : List UInt8 := s.text.toUTF8.toList ++ [0]

end Status

/-- The code a failure is reported as. -/
def Failure.status : Failure → Status
  | invalidArgument _ => .invalidArgument
  | alreadyExists => .alreadyExists
  | notFound => .notFound
  | outOfSpace => .outOfSpace
  | alreadyBound => .alreadyBound
  | reclamationUnavailable => .reclamationUnavailable
  | lock _ => .lockFailed

end Dir248
