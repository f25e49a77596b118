/-!
# Readers and reclamation, in words

* **`ReaderStep`** — what a reader may do.
* **`ReclaimMode`** — how the groups that a table gave up wait for its readers.
-/

namespace Dir248

/-- A step of one reader; readers are counted in order of registration. -/
inductive ReaderStep where
  /-- A new reader takes a slot. -/
  | register
  /-- The reader may hold what it looks up from now on. -/
  | online (reader : Nat)
  /-- The reader holds nothing and will look up nothing. -/
  | offline (reader : Nat)
  /-- The reader holds nothing of what it looked up before. -/
  | quiescent (reader : Nat)
  /-- The reader gives its slot back. -/
  | leave (reader : Nat)
deriving Repr, DecidableEq, Inhabited

/-- How released groups wait until no reader can be inside them. -/
inductive ReclaimMode where
  /-- The writer blocks at every release until all readers have moved on. -/
  | wait
  /-- Released groups queue up and are freed in batches. A capacity of zero stands for the
  number of groups of the table, a batch of zero for the default batch. -/
  | defer (capacity threshold batch : Nat)
deriving Repr, DecidableEq, Inhabited

end Dir248
