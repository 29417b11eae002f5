import Sbpfs.Lib.Program
import Sbpfs.Cnode.DTree

/-!
# Runs of `DTree`

Connections call the methods of one `DTree`, one call at a time; what the C library
answers is chosen anew for each. A call that raises has ended like one that returns.
-/
namespace Sbpfs.Cnode.Ops

open Sbpfs.Lib.Program Sbpfs.Lib.Raise Sbpfs.Lib.Run
open Sbpfs.Cfs.Layout Sbpfs.Cfs.Data Sbpfs.Cfs.Query
open Sbpfs.Wire.Head
open Sbpfs.Cnode.Pool Sbpfs.Cnode.Libcfs

/-- A method call with its arguments. -/
inductive Op where
  | openFile (path oflags mode : Str) (uid : Int)
  | read (fd offset length : Str) (uid : Int)
  | write (fd offset length : Str) (uid : Int)
  | stat (path : Str) (uid : Int)
  | close (fd : Str) (uid : Int)
  | opendir (path : Str) (uid : Int)
  | readdir (dd entnum : Str) (uid : Int)
  | closedir (dd : Str) (uid : Int)
  | move (dst src : Str) (uid : Int)
  | remove (path : Str) (uid : Int)
  | chown (path : Str) (newuid uid : Int)
  | chmod (path mode : Str) (uid : Int)
  | mkdir (path : Str) (uid : Int)
  | rmdir (path : Str) (uid : Int)
  | addBlockInfo (order : List Str) (l : List Nat) (user ip : Str)
  | dropUser (user : Str)

/-- What a method returns. -/
inductive Value where
  | none
  | fd (fd : Int)
  | dir (dd entnum : Int)
  | blocks (data : List SendBlock)
  | stat (data : Stat)
  | entry (name : Str) (type : Int)
  deriving DecidableEq

def Op.run : Op → Py Value
  | .openFile path oflags mode uid => Value.fd <$> DTree.openFile path oflags mode uid
  | .read fd offset length uid => Value.blocks <$> DTree.read fd offset length uid
  | .write fd offset length uid => Value.blocks <$> DTree.write fd offset length uid
  | .stat path uid => Value.stat <$> DTree.stat path uid
  | .close fd uid => (fun _ => Value.none) <$> DTree.close fd uid
  | .opendir path uid => (fun q => Value.dir q.1 q.2) <$> DTree.opendir path uid
  | .readdir dd entnum uid => (fun q => Value.entry q.1 q.2) <$> DTree.readdir dd entnum uid
  | .closedir dd uid => (fun _ => Value.none) <$> DTree.closedir dd uid
  | .move dst src uid => (fun _ => Value.none) <$> DTree.move dst src uid
  | .remove path uid => (fun _ => Value.none) <$> DTree.remove path uid
  | .chown path newuid uid => (fun _ => Value.none) <$> DTree.chown path newuid uid
  | .chmod path mode uid => (fun _ => Value.none) <$> DTree.chmod path mode uid
  | .mkdir path uid => (fun _ => Value.none) <$> DTree.mkdir path uid
  | .rmdir path uid => (fun _ => Value.none) <$> DTree.rmdir path uid
  | .addBlockInfo order l user ip => (fun _ => Value.none) <$> DTree.addBlockInfo order l user ip
  | .dropUser user => (fun _ => Value.none) <$> DTree.dropUser user

/-- The keys of `ipmap` are listed in some order, each once. -/
def Op.Allowed (n : CtrlNode) : Op → Prop
  | .addBlockInfo order _ user ip => order.Perm (n.ipmap.insert user ip).keys
  | _ => True

/-- A call, and what the C library answers during it. -/
structure Turn where
  op : Op
  env : Env

/-- The node when the call begins. -/
def CtrlNode.answering (n : CtrlNode) (e : Env) : CtrlNode :=
  { n with world := { n.world with env := e } }

/-- One call that ends with the result `r`. -/
def Ends (n : CtrlNode) (a : Turn) (r : Except Exc Value) (n' : CtrlNode) : Prop :=
  a.op.Allowed n ∧ a.op.run (CtrlNode.answering n a.env) = .ok (r, n')

def OpStep (n : CtrlNode) (a : Turn) (n' : CtrlNode) : Prop := ∃ r, Ends n a r n'

/-- A control node that has just started: the disk is mounted, nothing is open and no data
node has reported. -/
structure Started (n : CtrlNode) : Prop where
  fds : n.fds = ∅
  ipmap : n.ipmap = ∅
  ips : n.ips = []
  blockmap : n.blockmap = ∅
  calls : n.calls = []

/-! ## Executing a list of calls -/

instance (n : CtrlNode) (op : Op) : Decidable (op.Allowed n) := by
  cases op <;> unfold Op.Allowed <;> infer_instance

/-- The calls one after another, with their results. -/
def execOps : List Turn → CtrlNode → Option (List (Except Exc Value) × CtrlNode)
  | [], n => some ([], n)
  | a :: as, n =>
    if a.op.Allowed n then
      match a.op.run (CtrlNode.answering n a.env) with
      | .ok (r, n') => (execOps as n').map fun q => (r :: q.1, q.2)
      | .error _ => none
    else none

theorem execOps_cons {a : Turn} {as : List Turn} {n n' : CtrlNode} {rs : List (Except Exc Value)}
    (h : execOps (a :: as) n = some (rs, n')) :
    ∃ r rs' n₁, rs = r :: rs' ∧ Ends n a r n₁ ∧ execOps as n₁ = some (rs', n') := by
  rw [execOps] at h
  by_cases hallow : a.op.Allowed n
  · rw [if_pos hallow] at h
    cases hr : a.op.run (CtrlNode.answering n a.env) with
    | error e => simp [hr] at h
    | ok q =>
      obtain ⟨r, n₁⟩ := q
      simp only [hr, Option.map_eq_some_iff, Prod.exists, Prod.mk.injEq] at h
      obtain ⟨rs', n₂, he, rfl, rfl⟩ := h
      exact ⟨r, rs', n₁, rfl, ⟨hallow, hr⟩, he⟩
  · rw [if_neg hallow] at h
    cases h

/-- An execution is a run of any system whose states carry a node and whose steps are calls. -/
theorem reach_execOps {σ : Type} {node : σ → CtrlNode} {init : σ → Prop}
    {step : σ → Turn → σ → Prop}
    {as : List Turn} {s : σ} {n' : CtrlNode} {rs : List (Except Exc Value)}
    (hnext : ∀ a ∈ as, ∀ s r n', Ends (node s) a r n' → ∃ s', node s' = n' ∧ step s a s')
    (hs : Reach init step s) (h : execOps as (node s) = some (rs, n')) :
    ∃ s', node s' = n' ∧ Reach init step s' := by
  induction as generalizing s rs with
  | nil =>
    cases h
    exact ⟨s, rfl, hs⟩
  | cons a as ih =>
    obtain ⟨r, rs', n₁, rfl, hends, hrest⟩ := execOps_cons h
    obtain ⟨s₁, rfl, hstep⟩ := hnext a (List.mem_cons_self ..) s r n₁ hends
    exact ih (fun a ha => hnext a (List.mem_cons_of_mem _ ha)) (.step hs hstep) hrest

/-- The node of a process that has just mounted the disk `dt`. -/
def startedNode (w : World) : CtrlNode := ⟨w, ∅, ∅, [], ∅, []⟩

theorem startedNode_started (w : World) : Started (startedNode w) := ⟨rfl, rfl, rfl, rfl, rfl⟩

end Sbpfs.Cnode.Ops
