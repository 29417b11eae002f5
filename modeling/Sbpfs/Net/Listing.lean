import Sbpfs.Cnode.DescriptorTypes
import Sbpfs.Cnode.RemovedFiles
import Sbpfs.Lib.Cursor
import Sbpfs.Libc.FramingLaws
import Sbpfs.Libc.TableSpec
import Sbpfs.Net.Queries

/-!
# Listing a directory while others work

The loop over `sbp_readdir`. The client counts the entries that it got, and the control node looks
the next one up in the table of the directory as it is then. A new entry goes to the end of the
table, and behind one that is taken away the others move up.
-/
namespace Sbpfs.Net.Listing

open Sbpfs.Lib.Program Sbpfs.Lib.Run Sbpfs.Lib.Memory Sbpfs.Lib.Cursor Sbpfs.Lib.Raise
open Sbpfs.Cfs.Layout (Env S_DIR CStr metaStrbase)
open Sbpfs.Cfs.Rules Sbpfs.Cfs.DiskStore Sbpfs.Cfs.DiskView Sbpfs.Cfs.DirectoryListing
open Sbpfs.Cfs.RunSpec Sbpfs.Cfs.PathLaws Sbpfs.Cfs.BlockListing
open Sbpfs.Cfs.FileSpec (imageOf)
open Sbpfs.Cfs.DataSpec (u64OfInt_nat)
open Sbpfs.Spec.FileTree Sbpfs.Spec.Resolve
open Sbpfs.Wire.Head Sbpfs.Wire.Number Sbpfs.Libc.RequestSpec Sbpfs.Libc.Table
open Sbpfs.Libc.Request (Login s64 bytesOf)
open Sbpfs.Libc.FramingLaws (headOf)
open Sbpfs.Cfs.Invariants (calm calm_succeeds)
open Sbpfs.Cfs.ChainLaws (vast vast_ample)
open Sbpfs.Libc.Transfer Sbpfs.Libc.TableSpec Sbpfs.Libc.Directory
open Sbpfs.Cnode Sbpfs.Cnode.Pool Sbpfs.Cnode.Libcfs Sbpfs.Cnode.DTree Sbpfs.Cnode.Ops
open Sbpfs.Cnode.Dispatch Sbpfs.Cnode.RequestFields Sbpfs.Cnode.Frame Sbpfs.Cnode.DiskSteps
open Sbpfs.Cnode.Descriptors Sbpfs.Cnode.OpenObjects Sbpfs.Cnode.DescriptorTypes
open Sbpfs.Cnode.RemovedFiles (removesA)
open Sbpfs.Net.Queries Sbpfs.Net.FailedWrites
open Sbpfs.Cnode.Users (UsersInfo)

/-! ## What a call does to a table -/

section Tables

variable {fs fs' : Fs} {m m' d u u' p p' : Nat} {fl fl' : UInt8} {kids kids' : List Ent}

theorem edit_update {q : Nat} {o o' : Obj} (hd : fs d = some ⟨u, fl, .dir p kids⟩)
    (hq : fs q = some o)
    (hshape : SameShape o.node o'.node)
    (hd' : Function.update fs q (some o') d = some ⟨u', fl', .dir p' kids'⟩) :
    Edit (table d p kids) (table d p' kids') := by
  by_cases hne : d = q
  · subst hne
    rw [hq] at hd
    rw [Function.update_self] at hd'
    cases hd
    cases hd'
    obtain ⟨rfl, rfl⟩ := hshape
    exact Edit.refl _
  · rw [Function.update_of_ne hne, hd] at hd'
    cases hd'
    exact Edit.refl _

theorem edit_link {q p₀ : Nat} {od o : Obj} {kids₀ : List Ent} {e : Ent}
    (hl : Linkable fs q od p₀ kids₀ e o) (hd : fs d = some ⟨u, fl, .dir p kids⟩)
    (hd' : link fs q od p₀ kids₀ e o d = some ⟨u', fl', .dir p' kids'⟩) :
    Edit (table d p kids) (table d p' kids') := by
  by_cases hne : d = q
  · subst hne
    have hod := hl.dir.symm.trans hd
    cases hod
    have hnode := hl.node
    cases hnode
    rw [link_dir] at hd'
    cases hd'
    exact .append [e]
  · have hfresh : d ≠ e.fb := by
      rintro rfl
      rw [hl.fresh] at hd
      cases hd
    rw [link_ne hne hfresh, hd] at hd'
    cases hd'
    exact Edit.refl _

theorem edit_unlink {q p₀ i : Nat} {od : Obj} {kids₀ : List Ent} {e : Ent} (ht : Tree fs)
    (hu : Unlinkable fs q od p₀ kids₀ i e) (hd : fs d = some ⟨u, fl, .dir p kids⟩)
    (hd' : unlink fs q od p₀ kids₀ i e.fb d = some ⟨u', fl', .dir p' kids'⟩) :
    Edit (table d p kids) (table d p' kids') := by
  by_cases hne : d = q
  · subst hne
    have hod := hu.dir.symm.trans hd
    cases hod
    have hnode := hu.node
    cases hnode
    rw [unlink_dir] at hd'
    cases hd'
    -- behind `.` and `..`
    exact .erase (i + 2)
  · have hleft : d ≠ e.fb := by
      rintro rfl
      rw [hu.unlink_self ht] at hd'
      cases hd'
    rw [unlink_ne hne hleft, hd] at hd'
    cases hd'
    exact Edit.refl _

/-- An entry is made at the end, or one is taken away. -/
theorem effect_edit {c : Cfs.Calls.Call} {r : Int} (he : Effect fs m c r fs' m') (ht : Tree fs)
    (hd : fs d = some ⟨u, fl, .dir p kids⟩) (hd' : fs' d = some ⟨u', fl', .dir p' kids'⟩) :
    Edit (table d p kids) (table d p' kids') := by
  cases he with
  | same | found =>
    rw [hd] at hd'
    cases hd'
    exact Edit.refl _
  | mkdir _ hl | create _ hl => exact edit_link hl hd hd'
  | remove _ hu | rmdir _ hu => exact edit_unlink ht hu hd hd'
  | chmod _ obj | chown _ obj =>
    refine edit_update hd obj ?_ hd'
    exact SameShape.refl _
  | write obj =>
    refine edit_update hd obj ?_ hd'
    exact trivial

/-- The table of a directory that is there before a call and after it. -/
theorem entries_edit {n n' : CtrlNode} {a : Turn} {r : Except Exc Value} (h : NodeHolding n)
    (hends : Ends n a r n') (hs : SoundTurn n a) {fb : Nat} (hlive : Live n.world.dt fb S_DIR)
    (hlive' : Live n'.world.dt fb S_DIR) :
    Edit (entries n.world.dt fb) (entries n'.world.dt fb) := by
  obtain ⟨fs, chain, hst, ht, hb⟩ := h
  rcases turn_explained hst ht hb hends hs with hdt | ⟨c, ret, fs', chain', -, hst', he⟩
  · rw [hdt]
    exact Edit.refl _
  obtain ⟨u, fl, p, kids, hd⟩ := live_dir hst ht hlive
  obtain ⟨u', fl', p', kids', hd'⟩ := live_dir hst' (he.tree ht) hlive'
  rw [entries_eq hst hd, entries_eq hst' hd']
  exact effect_edit he ht hd hd'

theorem entries_nodup {n : CtrlNode} (h : NodeHolding n) {fb : Nat}
    (hlive : Live n.world.dt fb S_DIR) :
    (entries n.world.dt fb).Nodup := by
  obtain ⟨fs, chain, hst, ht, -⟩ := h
  obtain ⟨u, fl, p, kids, hd⟩ := live_dir hst ht hlive
  rw [entries_eq hst hd, ← ents_of_dir hd]
  exact List.Nodup.of_map _ (ents_nodup ht fb)

/-- The size of a table has eight bytes in the header. -/
theorem entries_length {n : CtrlNode} (h : NodeHolding n) {fb : Nat}
    (hlive : Live n.world.dt fb S_DIR) :
    (entries n.world.dt fb).length < 2 ^ 60 := by
  obtain ⟨fs, chain, hst, ht, -⟩ := h
  obtain ⟨u, fl, p, kids, hd⟩ := live_dir hst ht hlive
  have hsize : metaStrbase (imageOf n.world.dt.data (chain fb))
    = tableSize ⟨u, fl, .dir p kids⟩ fb :=
    strbase_eq (hst.obj fb _ hd).holds
  have hlt : metaStrbase (imageOf n.world.dt.data (chain fb)) < 2 ^ 64 := getLE_lt _ 40 8
  rw [hsize] at hlt
  have htable : tableSize ⟨u, fl, .dir p kids⟩ fb = 16 * (table fb p kids).length := rfl
  rw [entries_eq hst hd]
  omega

end Tables

/-! ## A listing -/

/-- The user, its descriptor, the number behind that at the control node, and the directory that
the number stands for. -/
structure Reader where
  users : UsersInfo
  uid : Int
  login : Login
  fits : Fits login
  dirfd : Int
  number : Int
  dir : Nat

/-- The control node, and the descriptors and the entries that the client has. -/
structure Screen where
  ctrl : CtrlNode
  fds : Fds
  out : List Dirent

/-- `sbp_readdir` with what the C library answers at the control node. -/
def Reader.readdir (c : Reader) (s : Screen) (heard : Bool) (stray : Str) (e : Env) :
    Except Stop ((Option Dirent × Fds) × CtrlNode) :=
  sbpReaddir (ask c.users c.uid heard stray) c.login s.fds c.dirfd (CtrlNode.answering s.ctrl e)

/-- The directory as it is. -/
def Reader.entries (c : Reader) (s : Screen) : List Ent :=
  Cfs.DiskView.entries s.ctrl.world.dt c.dir

/-- A call on the control node that leaves the directory there and its number open. -/
structure Leaving (c : Reader) (s : Screen) (a : Turn) (n' : CtrlNode) : Prop where
  sound : SoundTurn s.ctrl a
  kept : ¬ Takes s.ctrl a.op c.dir
  opened : CtrlNode.getFile n' c.uid c.number ≠ none

/-- No entry that the client has got is taken away, either. -/
structure Sparing (c : Reader) (s : Screen) (a : Turn)
    (n' : CtrlNode) : Prop extends Leaving c s a n' where
  listed : ∀ e ∈ (c.entries s).take s.out.length, e ∈ Cfs.DiskView.entries n'.world.dt c.dir

inductive Move where
  | call (a : Turn)
  | readdir (heard : Bool) (stray : Str) (e : Env)

def ListingStep (c : Reader) (s : Screen) : Move → Screen → Prop
  | .call a, s' => OpStep s.ctrl a s'.ctrl ∧ Sparing c s a s'.ctrl ∧ s'.fds = s.fds ∧ s'.out = s.out
  | .readdir heard stray e,
      s' => Ample e ∧ ∃ x, c.readdir s heard stray e = .ok ((x, s'.fds), s'.ctrl) ∧
      s'.out = s.out ++ x.toList

/-- The directory is there and open, and the descriptor stands behind what the client has got. -/
structure Attending (c : Reader) (s : Screen) : Prop where
  holding : NodeHolding s.ctrl
  pools : Partitioned s.ctrl
  live : Live s.ctrl.world.dt c.dir S_DIR
  found : ∃ file, CtrlNode.getFile s.ctrl c.uid c.number = some file ∧ file.type = Pool.S_DIR ∧
    (argI file.fb).toNat = c.dir
  range : 0 ≤ c.dirfd ∧ c.dirfd < MAX_FILE_OPEN
  slot : ∃ d, s.fds c.dirfd.toNat = some d ∧ s64 d.serverFd.toNat = c.number ∧
    d.offset.toNat = s.out.length

/-- What the client has got are the first entries, in their order. -/
structure Follows (c : Reader) (s : Screen) : Prop where
  front : s.out.map Dirent.reading = ((c.entries s).take s.out.length).map shown
  inside : s.out.length ≤ (c.entries s).length

section Steps

variable {c : Reader} {s s' : Screen} {a : Turn} {r : Except Exc Value} {n' : CtrlNode}

/-- A number that is open before and after a call stands for the same all the time. -/
theorem getFile_kept {uid k : Int} {n : CtrlNode} {file : FileDes} (hpools : Partitioned n)
    (hends : Ends n a r n') (hfile : CtrlNode.getFile n uid k = some file)
    (hopen : CtrlNode.getFile n' uid k ≠ none) : CtrlNode.getFile n' uid k = some file := by
  have heff := effect_run (n := CtrlNode.answering n a.env) hpools hends.2
  cases heff with
  | same hfds =>
    unfold CtrlNode.getFile at hfile ⊢
    rw [hfds]
    exact hfile
  | opened uid' fd file' _ _ hfresh _ hent =>
    rw [hent.getFile]
    unfold enter
    rw [if_neg]
    · exact hfile
    · rintro ⟨rfl, rfl⟩
      cases hfile.symm.trans hfresh
  | closed uid' fd _ _ hent =>
    rw [hent.getFile] at hopen ⊢
    unfold enter at hopen ⊢
    by_cases heq : uid = uid' ∧ k = fd
    · rw [if_pos heq] at hopen
      exact absurd rfl hopen
    · rw [if_neg heq]
      exact hfile

theorem attending_call (h : Attending c s) (hends : Ends s.ctrl a r n') (hs : Leaving c s a n') :
    Attending c ⟨n', s.fds, s.out⟩ := by
  obtain ⟨file, hfile, htype, hfb⟩ := h.found
  exact ⟨nodeHolding_turn h.holding hends hs.sound, partitioned_turn h.pools hends,
    live_turn h.holding hends hs.sound h.live hs.kept,
    ⟨file, getFile_kept h.pools hends hfile hs.opened, htype, hfb⟩, h.range, h.slot⟩

theorem follows_call (h : Attending c s) (hf : Follows c s) (hends : Ends s.ctrl a r n')
    (hs : Sparing c s a n') : Follows c ⟨n', s.fds, s.out⟩ := by
  have hlive := (attending_call h hends hs.toLeaving).live
  have hfront : Following ⟨c.entries s, s.out.length, (c.entries s).take s.out.length⟩ :=
    ⟨rfl, hf.inside⟩
  have hafter := following_edit hfront (entries_edit h.holding hends hs.sound h.live hlive)
    (entries_nodup h.holding h.live) hs.listed
  exact ⟨hf.front.trans (congrArg (List.map shown) hafter.front), hafter.inside⟩

/-- The directory as the control node finds it. -/
theorem Attending.dirAt (h : Attending c s) (e : Env) :
    ∃ p kids, DirAt (CtrlNode.answering s.ctrl e) c.uid c.number c.dir p kids ∧
      table c.dir p kids = c.entries s := by
  obtain ⟨fs, chain, hst, ht, -⟩ := h.holding
  obtain ⟨u, fl, p, kids, hd⟩ := live_dir hst ht h.live
  exact ⟨p, kids, ⟨h.found, fs, chain, u, fl, hst, hd⟩, (entries_eq hst hd).symm⟩

theorem Follows.count (hf : Follows c s) (h : Attending c s) : s.out.length < 2 ^ 60 :=
  hf.inside.trans_lt (entries_length h.holding h.live)

variable {heard : Bool} {stray : Str} {e : Env} {x : Option Dirent} {fds' : Fds}

/-- What one `sbp_readdir` of the loop does. -/
theorem readdir_step (h : Attending c s) (hcount : s.out.length < 2 ^ 60) (hmem : Ample e)
    (hrun : c.readdir s heard stray e = .ok ((x, fds'), n')) :
    Attending c ⟨n', fds', s.out ++ x.toList⟩ ∧ n'.world.dt = s.ctrl.world.dt ∧
      ((x = none ∧ (heard = true → (c.entries s)[s.out.length]? = none)) ∨
        ∃ y ent, x = some y ∧ (c.entries s)[s.out.length]? = some ent ∧ y.reading = shown ent) := by
  obtain ⟨p, kids, hat, htable⟩ := h.dirAt e
  obtain ⟨d, hslot, hnum, hoff⟩ := h.slot
  obtain ⟨hquiet, honly, hcase⟩ :=
    sbpReaddir_asked (hnum ▸ hat) hmem (hoff ▸ hcount) h.range hslot hrun
  have hdt : n'.world.dt = s.ctrl.world.dt := hquiet.dt
  have hnode : ∀ out (slot : ∃ d, fds' c.dirfd.toNat = some d ∧ s64 d.serverFd.toNat = c.number ∧
      d.offset.toNat = out.length), Attending c ⟨n', fds', out⟩ := by
    intro out slot
    obtain ⟨file, hfile, hfound⟩ := h.found
    refine ⟨?_, partitioned_onlyC honly h.pools, ?_, ⟨file, ?_, hfound⟩, h.range, slot⟩
    · unfold NodeHolding
      rw [hdt]
      exact h.holding
    · rw [hdt]
      exact h.live
    · rw [getFile_onlyC honly]
      exact hfile
  rw [htable, hoff] at hcase
  rcases hcase with ⟨rfl, rfl, hnone⟩ | ⟨y, ent, rfl, hent, hread, -, rfl⟩
  · -- nothing has come
    rw [show s.out ++ (none : Option Dirent).toList = s.out from List.append_nil _]
    exact ⟨hnode _ ⟨d, hslot, hnum, hoff⟩, hdt, .inl ⟨rfl, hnone⟩⟩
  · refine ⟨hnode _ ⟨_, setSlot_self .., hnum, ?_⟩, hdt, .inr ⟨y, ent, rfl, hent, hread⟩⟩
    have hnext : (s.out ++ (some y).toList).length = s.out.length + 1 := List.length_append
    rw [hnext, ← hoff]
    show (d.offset + 1).toNat = d.offset.toNat + 1
    rw [UInt64.toNat_add, UInt64.toNat_one]
    omega

theorem follows_readdir (h : Attending c s) (hf : Follows c s) (hmem : Ample e)
    (hrun : c.readdir s heard stray e = .ok ((x, fds'), n')) :
    Follows c ⟨n', fds', s.out ++ x.toList⟩ := by
  obtain ⟨-, hdt, hcase⟩ := readdir_step h (hf.count h) hmem hrun
  have hents : ∀ out, c.entries ⟨n', fds', out⟩ = c.entries s := by
    intro out
    unfold Reader.entries
    rw [hdt]
  rcases hcase with ⟨rfl, -⟩ | ⟨y, ent, rfl, hent, hread⟩
  · rw [show s.out ++ (none : Option Dirent).toList = s.out from List.append_nil _]
    constructor
    · rw [hents]
      exact hf.front
    · rw [hents]
      exact hf.inside
  · have hnext := following_step ⟨rfl, hf.inside⟩
      (.next (s := ⟨c.entries s, s.out.length, (c.entries s).take s.out.length⟩) hent)
    have hcount : (s.out ++ (some y).toList).length = s.out.length + 1 := List.length_append
    constructor
    · rw [hents, hcount, ← hnext.front, List.map_append, List.map_append, hf.front]
      exact congrArg (_ ++ [·]) hread
    · rw [hents, hcount]
      exact hnext.inside

/-- A reply that is heard has the entry at the place that the client has come to. -/
theorem readdir_heard (h : Attending c s) (hcount : s.out.length < 2 ^ 60) (stray : Str)
    (hmem : Ample e) :
    ∃ x fds' n', c.readdir s true stray e = .ok ((x, fds'), n') ∧
      x.map Dirent.reading = ((c.entries s)[s.out.length]?).map shown := by
  obtain ⟨p, kids, hat, -⟩ := h.dirAt e
  obtain ⟨d, hslot, hnum, hoff⟩ := h.slot
  obtain ⟨x, fds', n', hrun⟩ := @sbpReaddir_returns p c.dir kids _ c.users c.uid true
    stray c.login _ _ _
    (hnum ▸ hat) hmem (hoff ▸ hcount) h.range hslot c.fits
  refine ⟨x, fds', n', hrun, ?_⟩
  obtain ⟨-, -, ⟨rfl, hnone⟩ | ⟨y, ent, rfl, hent, hread⟩⟩ := readdir_step h hcount hmem hrun
  · rw [hnone rfl]
    rfl
  · rw [hent]
    exact congrArg some hread

end Steps

/-! ## Opening -/

/-- The directory has been opened by `sbp_opendir`, for which the control node has sent the
reply. -/
inductive Begun (c : Reader) : Screen → Prop
  | opendir {n n' : CtrlNode} {path : CStr} {e : Ent} {answer : Answer} {a : Answers}
      {head : SbpfsHead}
      {fds fds' : Fds} (holding : NodeHolding n) (pools : Partitioned n)
      (names : resolve (entries n.world.dt) path = some e) (type : e.type = Cfs.Layout.S_DIR)
      (dir : c.dir = e.fb)
      (asked : ask c.users c.uid true [] "OPENDIR" [bytesOf path] n = .ok (some answer, n'))
      (reply : a.opening.reply = some head) (title : head.title = answer.title)
      (strings : head.strings = answer.entrys)
      (opened : sbpOpendir c.login a path fds = .ok (c.dirfd, fds')) (done : 0 ≤ c.dirfd)
      (number : valueOf answer.entrys DIR_FD = some (decimal 0 c.number))
      (small : c.number < 2 ^ 63) :
      Begun c ⟨n', fds', []⟩

section Opening

variable {c : Reader} {s : Screen} {n n' : CtrlNode} {users : UsersInfo} {uid : Int}

theorem serve_opendir (dirname : Str) : serveMethod users uid (ascii "OPENDIR") [dirname]
    = exceptArguments (Dispatch.answer (DTree.opendir dirname uid) fun q =>
        sendrep [(ascii "DirFD", decimal 0 q.1), (ascii "DirEntryNum", decimal 0 q.2)]
          Value.none) := by
  have hfind : doMethod (ascii "OPENDIR") = some .opendir := by decide
  unfold serveMethod
  rw [hfind]
  rfl

/-- What `opendir` of a directory makes: a number that stands for it. -/
theorem opendir_opens {path : CStr} {e : Ent} {fd entnum : Int} (h : NodeHolding n)
    (hpools : Partitioned n)
    (hnames : resolve (entries n.world.dt) path = some e) (htype : e.type = Cfs.Layout.S_DIR)
    (hcall : DTree.opendir (bytesOf path) uid n = .ok (.ok (fd, entnum), n')) :
    NodeHolding n' ∧ Partitioned n' ∧ Live n'.world.dt e.fb S_DIR ∧
      ∃ file, CtrlNode.getFile n' uid fd = some file ∧ file.type = Pool.S_DIR ∧
        (argI file.fb).toNat = e.fb := by
  have hquiet : Quiet n n' := (quiet_opendir _ _).rel hcall
  have hrun : (Op.opendir (bytesOf path) uid).run n = .ok (.ok (.dir fd entnum), n') :=
    bind_step hcall _
  have hends : Ends n ⟨.opendir (bytesOf path) uid, n.world.env⟩ (.ok (.dir fd entnum)) n' :=
    ⟨trivial, hrun⟩
  have hhold : NodeHolding n' := by
    unfold NodeHolding
    rw [hquiet.dt]
    exact h
  refine ⟨hhold, partitioned_turn hpools hends, ?_⟩
  cases effect_run hpools hrun with
  | same _ _ hand => cases hand
  | closed _ _ _ hand => cases hand
  | opened uid' fd' file huser hand _ hmade hent =>
    cases huser
    cases hand
    obtain ⟨p, e', hp, hnames', -, rfl, hlive⟩ := opendir_made h rfl hends hmade
    cases (cstrOf_bytesOf path).symm.trans hp
    cases hnames.symm.trans hnames'
    rw [htype] at hlive
    refine ⟨hlive, ⟨e.fb, 0, Pool.S_DIR⟩, ?_, rfl, ?_⟩
    · rw [hent.getFile]
      exact if_pos ⟨rfl, rfl⟩
    · obtain ⟨fs, chain, hst, ht, -⟩ := hhold
      obtain ⟨o, ho, -⟩ := live_obj hst ht hlive
      have hlt := (hst.obj e.fb o ho).head_lt
      have hnum := hst.sized.fatNum_lt
      exact argI_eq (by omega)

/-- Numbers are counted from 0. -/
theorem getFile_nonneg {k : Int} {file : FileDes} (hpools : Partitioned n)
    (hfile : CtrlNode.getFile n uid k = some file) : 0 ≤ k := by
  obtain ⟨p, hp, hget⟩ := Option.bind_eq_some_iff.mp hfile
  have hmem : k ∈ p.usingmap.keys ++ p.usedlist := by
    refine List.mem_append_left _ (AList.mem_keys.mp ?_)
    exact AList.lookup_isSome.mp (Option.isSome_of_eq_some hget)
  obtain ⟨m, -, rfl⟩ := List.mem_map.mp ((hpools uid p hp).mem_iff.mp hmem)
  exact Int.natCast_nonneg m

/-- The number comes back as it was sent. -/
theorem number_kept {k : Int} (hpos : 0 ≤ k) (hlt : k < 2 ^ 63) :
    s64 (u64OfText (decimal 0 k)).toNat = k := by
  obtain ⟨m, rfl⟩ := Int.eq_ofNat_of_zero_le hpos
  have hm : m < 2 ^ 63 := Int.ofNat_lt.mp hlt
  have hmod : m < 2 ^ 64 := by omega
  unfold u64OfText
  rw [atoll_decimal hm, u64OfInt_nat hmod, UInt64.toNat_ofNat_of_lt' hmod]
  unfold s64
  rw [Nat.mod_eq_of_lt hmod, if_pos hm]

theorem attending_begun (h : Begun c s) : Attending c s ∧ Follows c s := by
  cases h with
  | @opendir n n' path e answer a head fds fds' holding pools names type dir asked
      reply title strings
      opened done number small =>
    obtain ⟨head', hreply, hok, hmade⟩ := sbpOpendir_done opened done
    cases reply.symm.trans hreply
    obtain ⟨i, d, fdS, hfd, hi, hslot, hoff, hvalue, hserver⟩ := opendirOk_done hmade done
    have hsays : answer.saysOk = true := by
      unfold Libc.Table.saysOk at hok
      rw [title] at hok
      exact hok
    obtain ⟨q, hcall, hq⟩ := ask_done (serve_opendir _) asked
    rcases hq with ⟨⟨fd, entnum⟩, rfl, hanswer⟩ | ⟨-, hno⟩
    · obtain ⟨hhold, hpart, hlive, file, hfile, hty, hfb⟩ :=
        opendir_opens holding pools names type hcall
      -- both read the same field of the reply
      have hnum : c.number = fd := by
        have hsent : valueOf answer.entrys DIR_FD = some (decimal 0 fd) := by
          rw [if_pos rfl] at hanswer
          cases hanswer
          rfl
        have htext : decimal 0 c.number = decimal 0 fd := Option.some.inj (number.symm.trans hsent)
        exact Option.some.inj ((pyInt_decimal 0 _).symm.trans (htext ▸ pyInt_decimal 0 _))
      have hpos := getFile_nonneg hpart hfile
      have hserver' : s64 d.serverFd.toNat = c.number := by
        have hread : getHeadEntryValue head DIR_FD = valueOf answer.entrys DIR_FD := by
          unfold getHeadEntryValue
          rw [strings]
        rw [hserver, Option.some.inj (hvalue.symm.trans (hread.trans number))]
        exact number_kept (hnum ▸ hpos) small
      refine ⟨⟨hhold, hpart, dir ▸ hlive, ⟨file, hnum ▸ hfile, hty, dir ▸ hfb⟩, ⟨done, by omega⟩,
        ⟨d, ?_, hserver', ?_⟩⟩, rfl, Nat.zero_le _⟩
      · rw [hfd]
        exact hslot
      · rw [hoff]
        rfl
    · rw [hno answer rfl] at hsays
      cases hsays

end Opening

/-! ## Runs -/

section Runs

variable {c : Reader} {s s' : Screen}

theorem attending_step {m : Move} (h : Attending c s ∧ Follows c s) (hs : ListingStep c s m s') :
    Attending c s' ∧ Follows c s' := by
  obtain ⟨ctrl, fds, out⟩ := s'
  cases m with
  | call a =>
    obtain ⟨⟨r, hends⟩, hsparing, hfds, hout⟩ := hs
    cases hfds
    cases hout
    exact ⟨attending_call h.1 hends hsparing.toLeaving, follows_call h.1 h.2 hends hsparing⟩
  | readdir heard stray e =>
    obtain ⟨hmem, x, hrun, hout⟩ := hs
    cases hout
    exact ⟨(readdir_step h.1 (h.2.count h.1) hmem hrun).1, follows_readdir h.1 h.2 hmem hrun⟩

theorem attending_run (h : Reach (Begun c) (ListingStep c) s) : Attending c s ∧ Follows c s :=
  h.inv (fun _ hs => attending_begun hs) fun _ _ _ hi hs => attending_step hi hs

/-- When an entry that the client has got is taken away, it never gets the one that it has come
to. -/
theorem listing_skips (h : Reach (Begun c) (ListingStep c) s) {a : Turn} {r : Except Exc Value}
    {n' : CtrlNode} {gone : Ent} (hends : Ends s.ctrl a r n') (hleaving : Leaving c s a n')
    (hgot : gone ∈ (c.entries s).take s.out.length)
    (hgone : gone ∉ Cfs.DiskView.entries n'.world.dt c.dir)
    (stray : Str) {e : Env} (hmem : Ample e) :
    ∃ x fds' n'', c.readdir ⟨n', s.fds, s.out⟩ true stray e = .ok ((x, fds'), n'') ∧
      x.map Dirent.reading = ((c.entries s)[s.out.length + 1]?).map shown := by
  obtain ⟨hat, hfollow⟩ := attending_run h
  have hafter := attending_call hat hends hleaving
  have hskip :=
    edit_skips (entries_edit hat.holding hends hleaving.sound hat.live hafter.live) hgot hgone
  obtain ⟨x, fds', n'', hrun, hread⟩ := readdir_heard hafter (hfollow.count hat) stray hmem
  exact ⟨x, fds', n'', hrun, hread.trans (congrArg (Option.map shown) hskip)⟩

end Runs

/-! ## A file that is made meanwhile -/

theorem fits_caller : Fits caller := by
  unfold Fits
  decide

/-- The user 0 at the root directory. -/
def rootReader : Reader := ⟨.empty, 0, caller, fits_caller, 0, 0, rootFb⟩

def rootPath : CStr := (cstrOf (ascii "/")).getD []

/-- After `sbp_opendir` of the root directory. -/
def openedRoot : Option (CtrlNode × Answer × SbpfsHead × Fds × CtrlNode) :=
  bootNode.bind fun n =>
    (ask .empty 0 true [] "OPENDIR" [bytesOf rootPath] n).toOption.bind fun q =>
    q.1.bind fun answer => (makeHead answer.title answer.entrys).bind fun text =>
      (sbpOpendir caller ⟨⟨true, some (headOf text)⟩, true, true, ⟨true, none⟩⟩ rootPath
        fun _ => none).toOption.bind
          fun r => if r.1 = 0 then some (n, answer, headOf text, r.2, q.2) else none

def Screen.next (s : Screen) : Option Screen :=
  (rootReader.readdir s true [] vast).toOption.map fun q => ⟨q.2, q.1.2, s.out ++ q.1.1.toList⟩

/-- Somebody makes a file. -/
def makes (path : Str) : Turn := ⟨.openFile path (ascii "4") (ascii "15") 0, calm⟩

def Screen.make (s : Screen) (path : Str) : Option Screen :=
  ((makes path).op.run (CtrlNode.answering s.ctrl calm)).toOption.map fun q => ⟨q.2, s.fds, s.out⟩

/-- A file is made beside what is there. -/
def staysListed (s s' : Screen) : Bool :=
  (CtrlNode.getFile s'.ctrl 0 0).isSome &&
    ((rootReader.entries s).take s.out.length).all fun e => decide (e ∈ rootReader.entries s')

theorem make_step {s s' : Screen} {path : Str} {p : CStr} (hp : cstrOf path = some p)
    (hlen : p.length < 2 ^ 31) (hmade : s.make path = some s') (hstays : staysListed s s' = true) :
    ListingStep rootReader s (.call (makes path)) s' := by
  obtain ⟨⟨r, n'⟩, hrun, rfl⟩ := Option.map_eq_some_iff.mp hmade
  simp only [staysListed, Bool.and_eq_true, List.all_eq_true, decide_eq_true_eq] at hstays
  have hflags : pyInt (ascii "4") = some 4 := by decide
  have hmode : pyInt (ascii "15") = some 15 := by decide
  have hcall : libCall s.ctrl (makes path).op = some _ := libCall_openFile hp hflags hmode
  have hsound : SoundTurn s.ctrl (makes path) := soundTurn_open hp hflags hmode hlen
  refine ⟨⟨r, trivial, toOption_some hrun⟩, ⟨⟨hsound, ?_, ?_⟩, hstays.2⟩, rfl, rfl⟩
  · rintro ⟨path, uid, d, e, -, ⟨hno, -⟩ | ⟨hno, -⟩⟩
    · cases hcall.symm.trans hno
    · cases hcall.symm.trans hno
  · exact Option.isSome_iff_ne_none.mp hstays.1

theorem next_step {s s' : Screen} (h : s.next = some s') :
    ListingStep rootReader s (.readdir true [] vast) s' := by
  obtain ⟨⟨⟨x, fds'⟩, n'⟩, hrun, rfl⟩ := Option.map_eq_some_iff.mp h
  exact ⟨vast_ample, x, toOption_some hrun, rfl⟩

theorem begun_root {n n' : CtrlNode} {answer : Answer} {head : SbpfsHead} {fds : Fds} {e : Ent}
    (h : openedRoot = some (n, answer, head, fds, n'))
    (hnames : resolve (entries n.world.dt) rootPath = some e)
    (htype : e.type = Cfs.Layout.S_DIR) (hfb : e.fb = rootFb) (htitle : head.title = answer.title)
    (hstrings : head.strings = answer.entrys)
    (hnumber : valueOf answer.entrys DIR_FD = some (decimal 0 0)) :
    Begun rootReader ⟨n', fds, []⟩ := by
  obtain ⟨n₀, hboot, h⟩ := Option.bind_eq_some_iff.mp h
  obtain ⟨⟨said, n₁⟩, hask, h⟩ := Option.bind_eq_some_iff.mp h
  obtain ⟨answer₀, hsaid, h⟩ := Option.bind_eq_some_iff.mp h
  obtain ⟨text, -, h⟩ := Option.bind_eq_some_iff.mp h
  obtain ⟨⟨fd, fds'⟩, hopen, h⟩ := Option.bind_eq_some_iff.mp h
  dsimp only at hsaid h
  split at h
  · rename_i hzero
    cases h
    cases hsaid
    have hstart := mounted_boot hboot
    exact .opendir hstart.2 (partitioned_started hstart.1) hnames htype hfb.symm
      (toOption_some hask) rfl
      htitle hstrings (hzero ▸ toOption_some hopen) (Int.le_refl 0) hnumber (by decide)
  · cases h

def pathB : CStr := (cstrOf (ascii "/b")).getD []

theorem cstrOf_pathB : cstrOf (ascii "/b") = some pathB := by decide

def removeA : Turn := ⟨.remove (ascii "/a") 0, calm⟩

/-- What `remove` takes away is not the root directory. -/
theorem leaving_removeA {s : Screen} {n' : CtrlNode} (hfb : removesA s.ctrl = some 2)
    (hopen : (CtrlNode.getFile n' 0 0).isSome = true) : Leaving rootReader s removeA n' := by
  have hcall : libCall s.ctrl removeA.op = some (.remove pathA 0) := rfl
  refine ⟨?_, ?_, Option.isSome_iff_ne_none.mp hopen⟩
  · intro c hc
    cases hcall.symm.trans hc
    exact calm_succeeds _
  · rintro ⟨path, uid, d, e, hroot, ⟨hremove, hplan⟩ | ⟨hremove, -⟩⟩
    · cases hcall.symm.trans hremove
      unfold removesA at hfb
      rw [hplan] at hfb
      have htwo : e.fb = 2 := Option.some.inj hfb
      rw [hroot] at htwo
      cases htwo
    · cases hcall.symm.trans hremove

/-- The files `/a` and `/b` are made after the first entry has been read, and `/a` has been read,
too. -/
theorem exists_listing : ∃ s r n' gone, Reach (Begun rootReader) (ListingStep rootReader) s ∧
    (s.out.length = 3 ∧ (rootReader.entries s).length = 4) ∧ Ends s.ctrl removeA r n' ∧
    Leaving rootReader s removeA n' ∧ gone ∈ (rootReader.entries s).take s.out.length ∧
    gone ∉ entries n'.world.dt rootFb := by
  have hrun : (openedRoot.any fun q =>
      ((resolve (entries q.1.world.dt) rootPath).any fun e => e.type == Cfs.Layout.S_DIR &&
        e.fb == rootFb) &&
        q.2.2.1.title == q.2.1.title && decide (q.2.2.1.strings = q.2.1.entrys) &&
        decide (valueOf q.2.1.entrys DIR_FD = some (decimal 0 0)) &&
        (Screen.next ⟨q.2.2.2.2, q.2.2.2.1, []⟩).any fun s₁ => (s₁.make (ascii "/a")).any fun s₂ =>
          staysListed s₁ s₂ && (s₂.make (ascii "/b")).any fun s₃ => staysListed s₂ s₃ &&
          s₃.next.any fun s₄ => s₄.next.any fun s₅ =>
            s₅.out.length == 3 && (rootReader.entries s₅).length == 4 &&
              removesA s₅.ctrl == some 2 &&
            (removeA.op.run (CtrlNode.answering s₅.ctrl calm)).toOption.any fun p =>
              (CtrlNode.getFile p.2 0 0).isSome &&
              ((rootReader.entries s₅).take s₅.out.length).any fun e =>
                decide (e ∉ entries p.2.world.dt rootFb)) = true := by
    decide +kernel
  simp only [Option.any_eq_true, List.any_eq_true, Bool.and_eq_true, beq_iff_eq, decide_eq_true_eq,
    Prod.exists] at hrun
  obtain ⟨n, answer, head, fds, n', hopened,
    ⟨⟨⟨⟨e, hnames, htype, hfb⟩, htitle⟩, hstrings⟩, hnumber⟩,
    s₁, hnext₁, s₂, hmade₂, hstays₂, s₃, hmade₃, hstays₃, s₄, hnext₄, s₅, hnext₅,
      ⟨hlen, hremoves⟩, r, n'',
    hremove, hopen, gone, hgot, hgone⟩ := hrun
  have hbegun : Begun rootReader ⟨n', fds, []⟩ :=
    begun_root hopened hnames htype hfb htitle hstrings hnumber
  have h₁ := (Reach.init hbegun).step (next_step hnext₁)
  have h₂ := h₁.step (make_step cstrOf_pathA (by decide) hmade₂ hstays₂)
  have h₃ := h₂.step (make_step cstrOf_pathB (by decide) hmade₃ hstays₃)
  exact ⟨s₅, r, n'', gone, (h₃.step (next_step hnext₄)).step (next_step hnext₅), hlen,
    ⟨trivial, toOption_some hremove⟩, leaving_removeA hremoves hopen, hgot, hgone⟩

/-- The fourth of the entries is there all the time, and is not listed. -/
theorem listing_skips_root :
    ∃ (s : Screen) (n' : CtrlNode) (x : Option Dirent) (fds' : Fds) (n'' : CtrlNode),
    s.out.length = 3 ∧ (rootReader.entries s).length = 4 ∧
    rootReader.readdir ⟨n', s.fds, s.out⟩ true [] vast = .ok ((x, fds'), n'') ∧
    x.map Dirent.reading = ((rootReader.entries s)[4]?).map shown := by
  obtain ⟨s, r, n', gone, hreach, ⟨hlen, hcount⟩, hends, hleaving, hgot, hgone⟩ := exists_listing
  obtain ⟨x, fds', n'', hrun, hread⟩ := listing_skips hreach hends hleaving hgot hgone [] vast_ample
  rw [hlen] at hread
  exact ⟨s, n', x, fds', n'', hlen, hcount, hrun, hread⟩

end Sbpfs.Net.Listing
