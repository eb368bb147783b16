import Tcb.Fs2Xml.WalkDir
import Tcb.Fs2Xml.Manifest
import Tcb.Fs2Xml.TarHeader

/-!
# The shape of the table and the end of the walks

The loop of `GetFullPathNotHidden` follows the parents and the three walks call
themselves for directories, with nothing in the code that bounds either.  The
shape that every run of `MergeFile` leaves behind bounds both.
-/

namespace Tcb.Termination

open Tcb.CString
open Tcb.Inodes
open Tcb.MergeFile
open Tcb.TableShape
open Tcb.Paths
open Tcb.WalkDir
open Tcb.Manifest

/-- What holds between any two inodes of a table. -/
structure WellShaped (inodes : Table) : Prop where
  parents : ∀ (i : ℕ) node, inodes[i]? = some node →
    node.parentid = -1 ∨ 0 ≤ node.parentid ∧ node.parentid < i
  names : ∀ (i : ℕ) node, inodes[i]? = some node → 47 ∉ nameOf node
  different : ∀ (i j : ℕ) left right, inodes[i]? = some left → inodes[j]? = some right →
    i ≠ j → (left.parentid, nameOf left) ≠ (right.parentid, nameOf right)

/-- The loop and the walks come to an end, from every inode, on every host and
with any amount of fuel that lets them call themselves once for each inode
behind the start. -/
structure WalksEnd (inodes : Table) : Prop where
  loop : ∀ (fuel : ℕ) (id : ℤ) path hidden, -1 ≤ id → id + 1 ≤ fuel →
    Run.Ends (pathLoop inodes fuel id path hidden)
  fullPath : ∀ root (id : ℤ), -1 ≤ id → id < inodes.length →
    Run.Ends (getFullPathNotHidden inodes root id)
  dir : ∀ (host : Host) (disk : host.Disk) log (fuel : ℕ) (parentid : ℤ), -1 ≤ parentid →
    parentid < inodes.length → (inodes.length : ℤ) ≤ fuel + parentid →
    Run.Ends (walkDir fuel parentid ⟨inodes, disk, log⟩)
  xml : ∀ fp sub (fuel : ℕ) (parentid : ℤ), -1 ≤ parentid → parentid < inodes.length →
    (inodes.length : ℤ) ≤ fuel + parentid →
    Run.Returns (walkXML inodes fuel parentid sub fp)
  json : ∀ fp sub (fuel : ℕ) (parentid : ℤ), -1 ≤ parentid → parentid < inodes.length →
    (inodes.length : ℤ) ≤ fuel + parentid →
    Run.Ends (walkJSON inodes fuel parentid sub fp)

/-- `SearchInode` returns the index of the only inode with that name and
parent, and `-1` when there is none. -/
def FindsOnlyMatch (inodes : Table) : Prop :=
  ∀ name parentid,
    (searchInode inodes name parentid = -1 ∧
      ∀ node ∈ inodes, node.parentid = parentid → nameOf node ≠ name) ∨
    ∃ (index : ℕ) (node : Inode), searchInode inodes name parentid = index ∧
      inodes[index]? = some node ∧ node.parentid = parentid ∧ nameOf node = name ∧
      ∀ (other : ℕ) found, inodes[other]? = some found →
        found.parentid = parentid → nameOf found = name → other = index

theorem walksEnd {inodes : Table} (hshape : Shape inodes) : WalksEnd inodes where
  loop _ _ path hidden hid hfuel := ends_pathLoop hshape hid hfuel path hidden
  fullPath root _ hid hlt := ends_getFullPathNotHidden hshape root hid hlt
  dir _ _ _ _ _ hroot hlt hfuel := ends_walkDir hshape hroot hlt hfuel
  xml fp sub _ _ hroot hlt hfuel := walkXML_returns hshape hroot hlt hfuel sub fp
  json fp sub _ _ hroot hlt hfuel := ends_walkJSON hshape hroot hlt hfuel sub fp

/-- Whatever members were merged, in whatever order, the table they leave
behind is well shaped, the walks over it end, and lookup in it is exact. -/
theorem reachable_wellShaped {inodes : Table} (hreach : Reachable inodes) :
    WellShaped inodes ∧ WalksEnd inodes ∧ FindsOnlyMatch inodes := by
  have hshape := reachable_shape hreach
  refine ⟨⟨hshape.parent_lt, ?_, ?_⟩, walksEnd hshape, searchInode_spec hshape⟩
  · intro i node hnode
    exact name_of_mem hreach (List.mem_of_getElem? hnode)
  · intro i j left right hleft hright hne heq
    rw [Prod.mk.injEq] at heq
    exact hne (hshape.siblings i j left right hleft hright heq.1 heq.2)

theorem smallTable_wellShaped :
    WellShaped TarHeader.smallTable ∧ WalksEnd TarHeader.smallTable ∧
      FindsOnlyMatch TarHeader.smallTable :=
  reachable_wellShaped ⟨_, TarHeader.mergeAll_smallTable⟩

end Tcb.Termination
