import InlaySql.Lib.Image

/-!
# The simulated disk

Writes are visible to reads at once and become durable at the next sync. A crash at
a sync loses every write since the one before; a torn write keeps a front of the
last of them.
-/

namespace InlaySql.Sim

open Lib

/-- How a sync ends. -/
inductive Fault where
  | none
  | crash
  | tornWrite (kept : Nat)
  deriving DecidableEq, Repr

/-- A disk with its durable bytes and the writes since the last sync, oldest first. -/
structure SimDisk where
  durable : Image
  pending : List (Nat × Bytes)

namespace SimDisk

def withImage (image : Image) : SimDisk := ⟨image, []⟩

/-- The image reads see. -/
def volatile (disk : SimDisk) : Image :=
  disk.pending.foldl (fun image write => image.write write.1 write.2) disk.durable

def write (disk : SimDisk) (offset : Nat) (data : Bytes) : SimDisk :=
  { disk with pending := disk.pending ++ [(offset, data)] }

/-- `sync` under a fault. -/
def sync (disk : SimDisk) : Fault -> SimDisk
  | .none => ⟨disk.volatile, []⟩
  | .crash => ⟨disk.durable, []⟩
  | .tornWrite kept =>
    match disk.pending.getLast? with
    | some (offset, data) => ⟨disk.durable.write offset (data.take kept), []⟩
    | none => ⟨disk.durable, []⟩

@[simp] theorem volatile_withImage (image : Image) : (withImage image).volatile = image := rfl

@[simp] theorem volatile_write (disk : SimDisk) (offset : Nat) (data : Bytes) :
    (disk.write offset data).volatile = disk.volatile.write offset data := by
  simp [volatile, write]

/-- A crash right after a write leaves the durable bytes, with a front of that write
when it tore. -/
theorem durable_sync_write (disk : SimDisk) (offset : Nat) (data : Bytes) {fault : Fault}
    (fails : fault ≠ .none) :
    ∃ kept, ((disk.write offset data).sync fault).durable =
      disk.durable.write offset (data.take kept) := by
  cases fault with
  | none => exact absurd rfl fails
  | crash =>
    refine ⟨0, ?_⟩
    rw [List.take_zero]
    exact (Image.write_same rfl).symm
  | tornWrite kept =>
    refine ⟨kept, ?_⟩
    simp [sync, write]

end SimDisk

end InlaySql.Sim
