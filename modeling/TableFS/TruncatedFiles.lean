import TableFS.Contents

/-! Truncate of a file that is open. Handles keep their descriptors while the data moves out of
the disk file and into a new one, so a handle can be left reading and writing the old file. -/
namespace TableFS
open Runs

/-- Requests on files whose handles stay in the inode cache see byte lists, as long as no handle
is left with a descriptor of an old disk file when data moves to a new one, and no Truncate moves the
string that it looks into. -/
theorem cached_handles_follow_truncate (config : Config) (env : Env) (mode : UInt32) (dev : Nat)
    (calls : List (Env × Op))
    (hok : Allowed step (fun s c => Cached s c ∧ StaleFree s c ∧ InPlace s c) (State.init config env mode dev) calls) :
    (run step (State.init config env mode dev) calls).2.map Result.seen =
      (run ByteFS.step ByteFS.init calls).2 :=
  (represents_run (represents_init config env mode dev) (hok.mono fun _ _ h => ⟨h.1, h.2.1⟩)).1

/-- Two handles, a cut below the threshold and a growth by one of them. -/
theorem cached_handles_follow_truncate_two :
    let calls := calmly [.makeNode (inRoot [97]) 0 0, .openFile (inRoot [97]) O_RDWR, .openFile (inRoot [97]) O_RDWR,
      .write 0 O_RDWR [1, 2, 3] 0, .truncate (inRoot [97]) 1, .write 0 O_RDWR [7, 8] 1, .read 1 9 0,
      .getAttr (inRoot [97]), .release 0]
    Allowed step (fun s c => Cached s c ∧ StaleFree s c ∧ InPlace s c) (State.fresh 2) calls ∧
      (run step (State.fresh 2) calls).2.map Result.seen = (run ByteFS.step ByteFS.init calls).2 := by
  have hok : Allowed step (fun s c => Cached s c ∧ StaleFree s c ∧ InPlace s c) (State.fresh 2)
      (calmly [.makeNode (inRoot [97]) 0 0, .openFile (inRoot [97]) O_RDWR, .openFile (inRoot [97]) O_RDWR,
        .write 0 O_RDWR [1, 2, 3] 0, .truncate (inRoot [97]) 1, .write 0 O_RDWR [7, 8] 1, .read 1 9 0,
        .getAttr (inRoot [97]), .release 0]) := by decide +kernel
  exact ⟨hok, cached_handles_follow_truncate _ _ _ _ _ hok⟩

/-- A handle opened on the disk file goes on reading it after the file was cut below the
threshold and padded above it again. -/
theorem truncate_leaves_stale_descriptor :
    let calls := calmly [.makeNode (inRoot [97]) 0 0, .openFile (inRoot [97]) O_RDWR, .write 0 O_RDWR [1, 2, 3] 0,
      .truncate (inRoot [97]) 1, .truncate (inRoot [97]) 4, .read 0 9 0]
    Allowed step (fun s c => Cached s c ∧ InPlace s c) (State.fresh 2) calls ∧
      (run step (State.fresh 2) calls).2.getLast? = some { ret := 3, data := [1, 2, 3] } ∧
      (run ByteFS.step ByteFS.init calls).2.getLast? = some { ret := 4, data := [1, 0, 0, 0] } := by
  decide +kernel

end TableFS
