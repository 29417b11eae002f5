import Sbpfs.Cfs.FileHeaders
import Sbpfs.Cnode.Addresses
import Sbpfs.Cnode.Descriptors
import Sbpfs.Cnode.DiskSteps

/-!
# Where blocks are put

Every block in a file's list has an address, one of those that `DTree.ips` listed when the block
was allocated. The maps of the control node change with a report of a data node or a drop only.
-/
namespace Sbpfs.Cnode.Homes

open Sbpfs.Lib.Program Sbpfs.Lib.Raise Sbpfs.Lib.Memory
open Sbpfs.Cfs.Rules Sbpfs.Cfs.Image Sbpfs.Cfs.DiskStore Sbpfs.Cfs.LookupSpec Sbpfs.Cfs.BlockSpec
open Sbpfs.Cfs.DataSpec Sbpfs.Cfs.Calls Sbpfs.Cfs.RunSpec
open Sbpfs.Cfs.Data Sbpfs.Cfs.Mkfs
open Sbpfs.Cfs.FileHeaders (file_header)
open Sbpfs.Cfs.FileSpec (imageOf)
open Sbpfs.Cfs.Layout (World metaFlen)
open Sbpfs.Spec.FileTree Sbpfs.Wire.Head
open Sbpfs.Cnode.Pool Sbpfs.Cnode.Libcfs Sbpfs.Cnode.DTree Sbpfs.Cnode.Ops Sbpfs.Cnode.Frame
open Sbpfs.Cnode.Descriptors Sbpfs.Cnode.DiskSteps Sbpfs.Cnode.Addresses

/-! ## The maps -/

/-- The three maps that `addBlockInfo` fills are the same. -/
structure SameMaps (n n' : CtrlNode) : Prop where
  ipmap : n'.ipmap = n.ipmap
  ips : n'.ips = n.ips
  blockmap : n'.blockmap = n.blockmap

instance : Std.Refl SameMaps := ⟨fun _ => ⟨rfl, rfl, rfl⟩⟩

instance : IsTrans CtrlNode SameMaps :=
  ⟨fun _ _ _ h h' => ⟨h'.ipmap.trans h.ipmap, h'.ips.trans h.ips, h'.blockmap.trans h.blockmap⟩⟩

instance : Aside SameMaps where
  inC := fun m => by
    apply stays_onPart
    intro n a w h
    exact ⟨rfl, rfl, rfl⟩
  record := fun c _ => stays_modifyState fun _ => ⟨rfl, rfl, rfl⟩

theorem sameMaps_onlyC {α : Type} {m : Py α} (h : Stays OnlyC m) : Stays SameMaps m :=
  ⟨fun hrun => ⟨(h.rel hrun).ipmap, (h.rel hrun).ips, (h.rel hrun).blockmap⟩⟩

theorem sameMaps_genFd (file : FileDes) (uid : Int) : Stays SameMaps (genFd file uid) :=
  stays_bind stays_getState fun _ =>
    stays_bind (stays_modifyState fun _ => ⟨rfl, rfl, rfl⟩) fun _ => stays_pure _

theorem sameMaps_desFd (fd uid : Int) : Stays SameMaps (desFd fd uid) := by
  apply stays_bind stays_getState
  intro n
  split
  · exact stays_raise _
  · split
    · exact stays_raiseWith _ _ _
    · exact stays_modifyState fun _ => ⟨rfl, rfl, rfl⟩

/-- A call that is no report and no drop. -/
def Silent : Op → Prop
  | .addBlockInfo .. => False
  | .dropUser _ => False
  | _ => True

theorem sameMaps_run {op : Op} (h : Silent op) : Stays SameMaps op.run := by
  cases op with
  | openFile path oflags mode uid =>
    exact stays_map _ (stays_bind (stays_openDes path oflags mode uid) fun _ => sameMaps_genFd _ _)
  | read fd offset length uid =>
      exact stays_map _ (sameMaps_onlyC (stays_read fd offset length uid))
  | write fd offset length uid =>
      exact stays_map _ (sameMaps_onlyC (stays_write fd offset length uid))
  | stat path uid => exact stays_map _ (stays_stat path uid)
  | close fd uid =>
    exact stays_map _ (stays_bind (stays_int _) fun _ => stays_bind (stays_findFile _ _ _ _ _)
      fun _ => sameMaps_desFd _ _)
  | opendir path uid =>
    exact stays_map _ (stays_bind (stays_opendirDes path uid) fun _ =>
      stays_bind (sameMaps_genFd _ _) fun _ => stays_pure _)
  | readdir dd entnum uid => exact stays_map _ (sameMaps_onlyC (stays_readdir dd entnum uid))
  | closedir dd uid =>
    exact stays_map _ (stays_bind (stays_int _) fun _ => stays_bind (stays_findFile _ _ _ _ _)
      fun _ => sameMaps_desFd _ _)
  | move dst src uid => exact stays_map _ (stays_move dst src uid)
  | remove path uid => exact stays_map _ (stays_remove path uid)
  | chown path newuid uid => exact stays_map _ (stays_chown path newuid uid)
  | chmod path mode uid => exact stays_map _ (stays_chmod path mode uid)
  | mkdir path uid => exact stays_map _ (stays_mkdir path uid)
  | rmdir path uid => exact stays_map _ (stays_rmdir path uid)
  | addBlockInfo order l user ip => exact h.elim
  | dropUser user => exact h.elim

/-! ## Addresses -/

/-- The text of an address other than 0.0.0.0. -/
def IsAddress (ip : Str) : Prop := ∃ q : Quad, ip = q.text ∧ q.value ≠ 0

/-- Data nodes are known by their addresses. -/
structure Addressed (n : CtrlNode) : Prop where
  ipmap : ∀ user ip, n.ipmap.lookup user = some ip → IsAddress ip
  ips : ∃ qs : List Quad, n.ips = List.intercalate [0x2c] (qs.map Quad.text) ∧ ∀ q ∈ qs, q.value ≠ 0

/-- A report comes with an address. -/
def Op.Addressed : Op → Prop
  | .addBlockInfo _ _ _ ip => IsAddress ip
  | _ => True

theorem addresses_quads {l : List Str} (h : ∀ ip ∈ l, IsAddress ip) :
    ∃ qs : List Quad, l = qs.map Quad.text ∧ ∀ q ∈ qs, q.value ≠ 0 := by
  induction l with
  | nil => exact ⟨[], rfl, fun q hq => absurd hq List.not_mem_nil⟩
  | cons ip l ih =>
    obtain ⟨q, rfl, hq⟩ := h ip (List.mem_cons_self ..)
    obtain ⟨qs, rfl, hqs⟩ := ih fun ip hip => h ip (List.mem_cons_of_mem _ hip)
    exact ⟨q :: qs, rfl, List.forall_mem_cons.mpr ⟨hq, hqs⟩⟩

section Turns

variable {n n' : CtrlNode} {a : Turn} {r : Except Exc Value}

theorem addressed_maps (h : Addressed n) (hs : SameMaps n n') : Addressed n' where
  ipmap := by
    rw [hs.ipmap]
    exact h.ipmap
  ips := by
    rw [hs.ips]
    exact h.ips

theorem addressed_started (h : Started n) : Addressed n where
  ipmap := by
    intro user ip hip
    rw [h.ipmap] at hip
    cases hip
  ips := ⟨[], h.ips, fun q hq => absurd hq List.not_mem_nil⟩

theorem addressed_turn (h : Addressed n) (hends : Ends n a r n') (hop : Op.Addressed a.op) :
    Addressed n' := by
  obtain ⟨op, e⟩ := a
  have hn : Addressed (CtrlNode.answering n e) := addressed_maps h ⟨rfl, rfl, rfl⟩
  by_cases hs : Silent op
  · exact addressed_maps hn ((sameMaps_run hs).rel hends.2)
  cases op with
  | addBlockInfo order l user ip =>
    have hrun := hends.2
    cases hrun
    have hlookup : ∀ u v, (n.ipmap.insert user ip).lookup u = some v → IsAddress v := by
      intro u v hv
      by_cases hu : u = user
      · subst hu
        rw [AList.lookup_insert] at hv
        exact Option.some.inj hv ▸ hop
      · rw [AList.lookup_insert_ne hu] at hv
        exact h.ipmap u v hv
    refine ⟨hlookup, ?_⟩
    obtain ⟨qs, hqs, hne⟩ := addresses_quads (l := order.filterMap (n.ipmap.insert user ip).lookup)
      fun v hv => by
        obtain ⟨u, -, hu⟩ := List.mem_filterMap.mp hv
        exact hlookup u v hu
    exact ⟨qs, congrArg (List.intercalate [0x2c]) hqs, hne⟩
  | dropUser user =>
    have hrun := hends.2
    cases hrun
    refine ⟨fun u v hv => ?_, h.ips⟩
    change (n.ipmap.erase user).lookup u = some v at hv
    by_cases hu : u = user
    · subst hu
      rw [AList.lookup_erase] at hv
      cases hv
    · rw [AList.lookup_erase_ne hu] at hv
      exact h.ipmap u v hv
  | _ => exact absurd trivial hs

/-- A write gets some address, and none of them is 0. -/
theorem parseIps_address (h : Addressed n) (hips : n.ips ≠ []) :
    ∀ a ∈ parseIps n.ips, a ≠ 0 := by
  obtain ⟨qs, hqs, hne⟩ := h.ips
  have hsome : qs ≠ [] := by
    rintro rfl
    exact hips hqs
  rw [hqs, parseIps_join hsome]
  intro a ha
  obtain ⟨q, hq, rfl⟩ := List.mem_map.mp (List.mem_reverse.mp ha)
  intro hzero
  apply hne q hq
  rw [← iptoi_toNat, hzero]
  rfl

end Turns

/-! ## The records of the files -/

/-- Every record of every file has an address. -/
def Homed (fs : Fs) : Prop :=
  ∀ fb u fl len recs, fs fb = some ⟨u, fl, .file len recs⟩ → ∀ r ∈ recs, ∃ ip ∈ r.ip, ip ≠ 0

/-- The disk holds a file tree whose blocks have addresses. -/
def NodeHomed (n : CtrlNode) : Prop :=
  ∃ fs chain, Store n.world.dt fs chain ∧ Tree fs ∧ Bounded fs ∧ Homed fs

/-- The counter of `gen_ip_index` is not negative and does not become so in a write. -/
def CounterFits (n : CtrlNode) (op : Op) : Prop :=
  ∀ fb offset length ips, libCall n op = some (.write fb offset length ips) →
    0 ≤ n.world.ipIndex ∧ n.world.ipIndex + 3 * growth
      (blocksFor (metaFlen (n.world.dt.data fb.toNat))) (offset.toNat + length.toNat) < 2 ^ 31

section Disk

variable {n n' : CtrlNode} {a : Turn} {r : Except Exc Value} {fs : Fs} {chain : Nat → List Nat}

/-- Numbers and addresses fit the fields of a record. -/
theorem rec_fits {dt : Cfs.Layout.Dtree} {fb u len : Nat} {fl : UInt8} {recs : List Rec}
    (hst : Store dt fs chain) (ho : fs fb = some ⟨u, fl, .file len recs⟩) {x : Rec}
    (hx : x ∈ recs) :
    x.num < 2 ^ 64 ∧ ∀ ip ∈ x.ip, ip < 2 ^ 32 := by
  have hat := hst.obj fb _ ho
  have hfile : FileImage (imageOf dt.data (chain fb)) (chain fb).length len recs := hat.holds.node
  obtain ⟨i, hi, rfl⟩ := List.getElem_of_mem hx
  rw [← hfile.record i _ (List.getElem?_eq_getElem hi)]
  refine ⟨getLE_lt _ _ 8, fun ip hip => ?_⟩
  have hlt : ∀ off, getLE (imageOf dt.data (chain fb)) off 4 < 2 ^ 32 := fun off => getLE_lt _ off 4
  simp only [recAt, List.mem_cons, List.not_mem_nil, or_false] at hip
  rcases hip with rfl | rfl | rfl
  · exact hlt _
  · exact hlt _
  · exact hlt _

/-- Only a write calls `c_write`. -/
theorem libCall_isWrite {op : Op} {fb : UInt32} {offset length : UInt64} {ips : List UInt32}
    (h : libCall n op = some (.write fb offset length ips)) :
    ∃ fd o l uid, op = .write fd o l uid := by
  cases op with
  | write fd offset length uid => exact ⟨_, _, _, _, rfl⟩
  | openFile path oflags mode uid => simp [libCall, Option.bind_eq_some_iff] at h
  | chmod path mode uid => simp [libCall, Option.bind_eq_some_iff] at h
  | move dst src uid => simp [libCall, Option.bind_eq_some_iff] at h
  | _ => simp [libCall] at h

/-- A new block gets one of the addresses. -/
theorem wrote_homed {w w' w₁ : World} {fb u len offset length : Nat} {fl : UInt8}
    {recs news : List Rec}
    {ips : List UInt32} {q : Int × List SendBlock} {cs : List Nat} (hh : Homed fs)
    (ho : fs fb = some ⟨u, fl, .file len recs⟩) (hips : ∀ a ∈ ips, a ≠ 0) (hip : 0 ≤ w.ipIndex)
    (hfit : w.ipIndex + 3 * growth recs.length (offset + length) < 2 ^ 31)
    (hw : Wrote fs chain fb u fl len recs offset length (ips.map UInt32.toNat) w q w' news w₁ cs) :
    Homed (Function.update fs fb
      (some ⟨u, fl, .file (max len (offset + length)) (recs ++ news)⟩)) := by
  intro m u' fl' len' recs' hm x hx
  by_cases hne : m = fb
  · subst hne
    rw [Function.update_self] at hm
    cases hm
    rcases List.mem_append.mp hx with hx | hx
    · exact hh m u fl len recs ho x hx
    · obtain ⟨ip, hip, v, hv, rfl⟩ := (hw.alloc.addr hip hfit).1 x hx
      refine ⟨_, hip, ?_⟩
      obtain ⟨a, ha, rfl⟩ := List.mem_map.mp hv
      rw [Nat.mod_eq_of_lt a.toNat_lt]
      intro hzero
      exact hips a ha (UInt32.toNat_inj.mp hzero)
  · rw [Function.update_of_ne hne] at hm
    exact hh m u' fl' len' recs' hm x hx

theorem homed_turn (h : NodeHomed n) (ha : Addressed n) (hends : Ends n a r n')
    (hs : SoundTurn n a) (hc : CounterFits n a.op) : NodeHomed n' := by
  obtain ⟨fs, chain, hst, ht, hb, hh⟩ := h
  have hsame : n'.world.dt = n.world.dt → NodeHomed n' := by
    intro hdt
    refine ⟨fs, chain, ?_, ht, hb, hh⟩
    rw [hdt]
    exact hst
  obtain ⟨op, e⟩ := a
  by_cases hop : ∃ fd offset length uid, op = .write fd offset length uid
  · obtain ⟨fd, offset, length, uid, rfl⟩ := hop
    obtain ⟨q, hq⟩ := map_done hends.2
    rcases write_done hq with ⟨hquiet, -⟩ |
      ⟨k, o, l, file, cap, q', w, hk, ho, hl, hget, -, -, hips, hcap, hsamew, hrun, -⟩
    · exact hsame hquiet.dt
    have hcall : libCall n (.write fd offset length uid)
        = some (.write (argI file.fb) (argK o) (argK l) (parseIps n.ips)) := by
      have hget' : CtrlNode.getFile n uid k = some file := hget
      simp [libCall, hk, ho, hl, hget']
    have hdt : w.dt = n.world.dt := hsamew.dt
    have hne : (parseIps n.ips).map UInt32.toNat ≠ [] := by
      rw [Ne, List.map_eq_nil_iff]
      exact parseIps_ne_nil _
    have hsound : WriteSound w.dt (argI file.fb).toNat (argK o).toNat (argK l).toNat := by
      rw [hdt]
      exact hs _ hcall
    have hst' : Store w.dt fs chain := by
      rw [hdt]
      exact hst
    rcases write_outcome hst' ht hb hne (Nat.le_refl _) hsound (cWrite_cap hcap hrun) with
      ⟨hq, -⟩ | ⟨u, fl, len, recs, news, w₁, cs, hobj, -, hend, hw⟩
    · exact hsame (hq.dt.trans hdt)
    obtain ⟨hpos, hfit⟩ := hc _ _ _ _ hcall
    have hindex : w.ipIndex = n.world.ipIndex := hsamew.ipIndex
    have hcount : recs.length = blocksFor (metaFlen (n.world.dt.data (argI file.fb).toNat)) := by
      have hfile : FileImage _ _ len recs := (hst.obj _ _ hobj).holds.node
      rw [(file_header hst hobj).1]
      exact hfile.count
    rw [← hcount, ← hindex] at hfit
    rw [← hindex] at hpos
    refine ⟨_, _, hw.rewritten.store, ht.touch hobj trivial, ?_,
      wrote_homed hh hobj (parseIps_address ha hips) hpos hfit hw⟩
    refine hb.update fun u' fl' len' recs' heq => ?_
    cases heq
    exact Nat.max_le.mpr ⟨hb _ _ _ _ _ hobj, hend⟩
  · rcases turn_explained hst ht hb hends hs with hdt | ⟨c, ret, fs', chain', hcall, hst', he⟩
    · exact hsame hdt
    refine ⟨fs', chain', hst', he.tree ht, he.bounded hb, fun m u fl len recs hm x hx => ?_⟩
    have hnot : ∀ fb offset length ips, c ≠ .write fb offset length ips := by
      rintro fb offset length ips rfl
      exact hop (libCall_isWrite hcall)
    rcases he.fileFrom ht hnot hm with ⟨u', fl', hold⟩ | ⟨-, -, rfl⟩
    · exact hh m u' fl' len recs hold x hx
    · cases hx

end Disk

/-! ## A fresh disk -/

/-- A fresh disk has no files. -/
theorem homed_boot {n : CtrlNode} (h : bootNode = some n) : NodeHomed n := by
  obtain ⟨-, w, w', hmem, -, hrun, hs⟩ := bootNode_fresh h
  obtain ⟨hst, -⟩ := wp_ok (wp_doMkcfs (H := True) hmem (.inl trivial)) hrun
  have hdt : n.world.dt = w'.dt := congrArg Sys.dt hs
  rw [← hdt] at hst
  refine ⟨freshFs, _, hst, freshFs_tree, bounded_fresh, fun fb u fl len recs ho => ?_⟩
  cases (freshFs_some ho).2

end Sbpfs.Cnode.Homes
