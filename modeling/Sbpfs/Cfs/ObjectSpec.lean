import Sbpfs.Cfs.Edit
import Sbpfs.Cfs.LookupSpec

/-!
# Writing objects

What `do_writefile`, `initfile` and `initdir` do to the tree on the disk: one object
gets new contents, or a new object appears. `Kept` records that the others are left
alone byte by byte.
-/
namespace Sbpfs.Cfs.ObjectSpec

open Sbpfs.Lib.Program Sbpfs.Lib.Memory Sbpfs.Lib.Chain
open Sbpfs.Cfs.Layout Sbpfs.Cfs.Rules Sbpfs.Cfs.FatSpec Sbpfs.Cfs.File Sbpfs.Cfs.FileSpec
open Sbpfs.Cfs.Lookup Sbpfs.Cfs.Image Sbpfs.Cfs.DiskStore Sbpfs.Cfs.LookupSpec Sbpfs.Cfs.Edit
open Sbpfs.Spec.FileTree Sbpfs.Spec.Resolve

variable {fs : Fs} {chain : Nat → List Nat} {H : Prop}

/-! ## Permissions -/

/-- The permission bits of `op` that `uid` has on an object. -/
def perm (uid : UInt32) (o : Obj) (op : UInt8) : UInt8 :=
  let uid := if uid.toNat = 0 then o.uid else uid.toNat
  let fmode := o.flags &&& S_ALL
  if uid = o.uid ∧ op = R then fmode &&& S_IRD
  else if uid = o.uid ∧ op = W then fmode &&& S_IWR
  else if uid ≠ o.uid ∧ op = R then fmode &&& S_ORD
  else if uid ≠ o.uid ∧ op = W then fmode &&& S_OWR
  else 0

theorem permissionCheck_eq {b : Bytes} {uid : UInt32} {o : Obj} {op : UInt8}
    (hu : metaUid b = o.uid) (hf : metaFlags b = o.flags) :
    permissionCheck uid b op = perm uid o op := by
  simp only [permissionCheck, perm, hu, hf]

section Header

variable {dt : Dtree} {fb : Nat} {o : Obj} {cs : List Nat}

theorem header_perm (h : ObjAt dt fb o cs) (uid : UInt32) (op : UInt8) :
    permissionCheck uid (dt.data fb) op = perm uid o op :=
  permissionCheck_eq ((h.header_field (by omega)).trans h.holds.uid)
    ((h.header (by omega)).trans h.holds.flags)

end Header

/-! ## Objects other than the one an operation works on -/

/-- Every live object but `d` keeps its chain, its slots and its bytes. -/
def Kept (fs : Fs) (chain chain' : Nat → List Nat) (d : Nat) (dt dt' : Dtree) : Prop :=
  ∀ m o, fs m = some o → m ≠ d →
    chain' m = chain m ∧ ∀ c ∈ chain m, dt'.fat c = dt.fat c ∧ dt'.data c = dt.data c

theorem Kept.refl (fs : Fs) (chain : Nat → List Nat) (d : Nat) (dt : Dtree) :
    Kept fs chain chain d dt dt := fun _ _ _ _ => ⟨rfl, fun _ _ => ⟨rfl, rfl⟩⟩

/-- Two steps on one object, the second on a tree where the objects kept are still live. -/
theorem Kept.trans {fs' : Fs} {chain' chain'' : Nat → List Nat} {d : Nat} {dt dt' dt'' : Dtree}
    (h : Kept fs chain chain' d dt dt') (h' : Kept fs' chain' chain'' d dt' dt'')
    (hlive : ∀ m o, fs m = some o → m ≠ d → ∃ o', fs' m = some o') :
    Kept fs chain chain'' d dt dt'' := by
  intro m o hm hd
  obtain ⟨o', hm'⟩ := hlive m o hm hd
  obtain ⟨hc, hk⟩ := h m o hm hd
  obtain ⟨hc', hk'⟩ := h' m o' hm' hd
  refine ⟨hc'.trans hc, fun c hmem => ?_⟩
  have hmem' : c ∈ chain' m := by rwa [hc]
  exact ⟨(hk' c hmem').1.trans (hk c hmem).1, (hk' c hmem').2.trans (hk c hmem).2⟩

/-! ## Replacing the contents of an object -/

/-- The state after the object at `d` was replaced by `o'`. -/
structure Rewritten (fs : Fs) (chain : Nat → List Nat) (d : Nat) (o' : Obj) (w w' : World)
    (cs : List Nat) : Prop where
  store : Store w'.dt (Function.update fs d (some o')) (Function.update chain d cs)
  kept : Kept fs chain (Function.update chain d cs) d w.dt w'.dt
  later : Later w.env w'.env
  ipIndex : w'.ipIndex = w.ipIndex
  maxBlockNum : w'.dt.sb.maxBlockNum = w.dt.sb.maxBlockNum
  sorted : cs.Pairwise (· < ·)

/-- The header of the object at `fb` is the one of `image`. -/
def Headed (fb : Nat) (image : Bytes) (w : World) : Prop :=
  ∀ off m, off + m ≤ 64 → getLE (w.dt.data fb) off m = getLE image off m

theorem headed_written {w w' : World} {image : Bytes} {size fb n : Nat} {cs : List Nat}
    (hw : Written w image 0 size fb n cs w') (hn : 0 < n) (hsize : 64 ≤ size) :
    Headed fb image w' := by
  intro off m hoff
  have hagree : Agree (w'.dt.data fb) image 0 64 := by
    intro j _ hj
    obtain ⟨rest, hrest⟩ : ∃ rest, cs = fb :: rest := List.head?_eq_some_iff.mp hw.head
    have hcont := hw.contents j (by omega) (by omega)
    rw [hrest, imageOf_head (by omega), Nat.zero_add] at hcont
    exact hcont
  exact getLE_congr (hagree.mono (Nat.zero_le _) (by omega))

/-- An object is replaced by the one of `image`, byte by byte as far as there are sectors. -/
theorem wp_writeObj_image {w : World} {d n size : Nat} {o o' : Obj} {image : Bytes}
    (hst : Store w.dt fs chain) (ho : fs d = some o) (hh : Holds image n d o')
    (hsize : size < 2 ^ 64) (hext : extent image o'.node ≤ size) (hmeta : 64 ≤ size)
    (hH : H ∨ (Ample w.env ∧ Spare (freed w.dt (chain d)) d (n - 1))) :
    wpOr H (doWritefile d image size) (fun _ w' => ∃ cs, Rewritten fs chain d o' w w' cs ∧
      Headed d image w' ∧ Agree (imageOf w'.dt.data cs) image 0 (min size (512 * n))) w := by
  have hat := hst.obj d o ho
  obtain ⟨rest, hrest⟩ := hat.cons
  obtain ⟨k, hk⟩ : ∃ k, n = k + 1 := ⟨n - 1, by have := hh.sectors_pos; omega⟩
  have hlink : Linked w.dt.fat ENDSEC (d :: rest) := hrest ▸ hat.linked
  have hlt : ∀ c ∈ d :: rest, c < w.dt.sb.fatNum := hrest ▸ hat.lt
  have hlen : (d :: rest).length < 2 ^ 23 := by
    rw [← hrest]
    exact (hat.length_le hst.sized).trans_lt hst.sized.fatNum_lt
  refine wp_mono (wp_doWritefile hst.sized hst.topFree hlink hlt (hh.blocks.trans hk) hsize
    (hH.imp_right fun h => ⟨h.1, hlen, ?_⟩)) ?_
  · rw [← hrest, show k = n - 1 by omega]
    exact h.2
  rintro _ w' ⟨cs, hw⟩
  rw [← hrest] at hw
  have hagree : Agree (imageOf w'.dt.data cs) image 0 (min size (512 * n)) := by
    intro j _ hj
    rw [hw.contents j (by omega) (by omega), Nat.zero_add]
  refine ⟨cs, ⟨?_, ?_, hw.later, hw.ipIndex, hw.maxBlockNum, hw.sorted⟩,
    headed_written hw (by omega) hmeta, hagree⟩
  · refine hst.rewrite ho hw fun img himg => ?_
    rw [← hk]
    have hle := hh.extent_le
    have hagree : Agree img image 0 (min size (512 * n)) :=
      fun j _ hj => himg j (by omega) (by omega)
    exact hh.congr hagree (by omega) (by omega)
  · intro m o₁ hm hne
    have hnew : ∀ c ∈ chain m, c ∉ cs := by
      intro c hc hcs
      have hold : c ∉ chain d := fun hcd => hst.disjoint m d o₁ o hm ho hne hc hcd
      rcases hw.fresh c hcs with rfl | hz
      · exact hold hat.head_mem
      · have hfat : (freed w.dt (chain d)).fat c = w.dt.fat c := cleared_of_not_mem hold
        exact (hst.obj m o₁ hm).fat_ne_zero hc (hfat.symm.trans hz)
    refine ⟨Function.update_of_ne hne _ _, fun c hc => ⟨?_, ?_⟩⟩
    · rw [hw.fat c (hnew c hc)]
      exact cleared_of_not_mem fun hcd => hst.disjoint m d o₁ o hm ho hne hc hcd
    · exact hw.data c ((hst.obj m o₁ hm).lt c hc) (hnew c hc)

theorem wp_writeObj_headed {w : World} {d n size : Nat} {o o' : Obj} {image : Bytes}
    (hst : Store w.dt fs chain) (ho : fs d = some o) (hh : Holds image n d o')
    (hsize : size < 2 ^ 64) (hext : extent image o'.node ≤ size) (hmeta : 64 ≤ size)
    (hH : H ∨ (Ample w.env ∧ Spare (freed w.dt (chain d)) d (n - 1))) :
    wpOr H (doWritefile d image size)
      (fun _ w' => (∃ cs, Rewritten fs chain d o' w w' cs) ∧ Headed d image w') w :=
  wp_mono (wp_writeObj_image hst ho hh hsize hext hmeta hH)
    fun _ _ ⟨cs, hrew, hhead, _⟩ => ⟨⟨cs, hrew⟩, hhead⟩

/-! ## New objects -/

section NewMeta

variable {uid now count flen strbase strlen blocks : Nat} {flags : UInt8}

theorem newMeta_uid (h : uid < 2 ^ 32) :
    metaUid (newMeta uid now count flen strbase strlen blocks flags) = uid := by
  simp (disch := omega) only [newMeta, metaUid, getLE_putLE_ne]
  exact getLE_putLE h

theorem newMeta_count (h : count < 2 ^ 32) :
    metaCount (newMeta uid now count flen strbase strlen blocks flags) = count := by
  simp (disch := omega) only [newMeta, metaCount, getLE_putLE_ne]
  exact getLE_putLE h

theorem newMeta_flen (h : flen < 2 ^ 64) :
    metaFlen (newMeta uid now count flen strbase strlen blocks flags) = flen := by
  simp (disch := omega) only [newMeta, metaFlen, getLE_putLE_ne]
  exact getLE_putLE h

theorem newMeta_strbase (h : strbase < 2 ^ 64) :
    metaStrbase (newMeta uid now count flen strbase strlen blocks flags) = strbase := by
  simp (disch := omega) only [newMeta, metaStrbase, getLE_putLE_ne]
  exact getLE_putLE h

theorem newMeta_strlen (h : strlen < 2 ^ 64) :
    metaStrlen (newMeta uid now count flen strbase strlen blocks flags) = strlen := by
  simp (disch := omega) only [newMeta, metaStrlen, getLE_putLE_ne]
  exact getLE_putLE h

theorem newMeta_blocks (h : blocks < 2 ^ 32) :
    metaBlocks (newMeta uid now count flen strbase strlen blocks flags) = blocks := by
  simp (disch := omega) only [newMeta, metaBlocks, getLE_putLE_ne]
  exact getLE_putLE h

theorem newMeta_flags :
    metaFlags (newMeta uid now count flen strbase strlen blocks flags) = flags := by
  unfold metaFlags newMeta
  exact putLE_byte _ _ _

end NewMeta

/-- The object `initfile` makes. -/
def newFile (uid : UInt32) (mode : UInt8) : Obj := ⟨uid.toNat, mode, .file 0 []⟩

/-- The object `initdir` makes. -/
def newDir (uid : UInt32) (parent : Nat) : Obj := ⟨uid.toNat, INITMODE, .dir parent []⟩

theorem newFile_holds (uid : UInt32) (mode : UInt8) (now fb : Nat) :
    Holds (newMeta uid.toNat now 1 0 0 0 1 mode) 1 fb (newFile uid mode) where
  uid := newMeta_uid uid.toNat_lt
  flags := newMeta_flags
  blocks := newMeta_blocks (by decide)
  node := ⟨newMeta_flen (by decide), newMeta_strbase (by decide), by simp, by decide,
    fun i r hr => by simp at hr⟩

section InitDir

variable {uid now fb parent : Nat}

theorem putEntry_outside {b : Bytes} {off name fb i : Nat} {type : UInt8}
    (h : i < off ∨ off + 13 ≤ i) : putEntry b off name fb type i = b i := by
  simp (disch := omega) only [putEntry, putLE_outside]

theorem getLE_putEntry_outside {b : Bytes} {off name fb off' n : Nat} {type : UInt8}
    (h : off' + n ≤ off ∨ off + 13 ≤ off') :
    getLE (putEntry b off name fb type) off' n = getLE b off' n := by
  simp (disch := omega) only [putEntry, getLE_putLE_ne]

theorem putEntry_name {b : Bytes} {off name fb : Nat} {type : UInt8} (h : name < 2 ^ 64) :
    entryName (putEntry b off name fb type) off = name := by
  simp (disch := omega) only [putEntry, entryName, getLE_putLE_ne]
  exact getLE_putLE h

theorem putEntry_fb {b : Bytes} {off name fb : Nat} {type : UInt8} (h : fb < 2 ^ 32) :
    entryFb (putEntry b off name fb type) off = fb := by
  simp (disch := omega) only [putEntry, entryFb, getLE_putLE_ne]
  exact getLE_putLE h

theorem putEntry_type {b : Bytes} {off name fb : Nat} {type : UInt8} :
    entryType (putEntry b off name fb type) off = type :=
  putLE_byte _ _ _

/-- The header of a new directory is the one `initdir` assigns. -/
theorem initdirImage_header {off n : Nat} (h : off + n ≤ 64) :
    getLE (initdirImage uid now fb parent) off n
      = getLE (newMeta uid now 3 initdirSize (2 * entrySize) 5 1 INITMODE) off n := by
  have h0 : entryOff 0 = 64 := rfl
  have h1 : entryOff 1 = 80 := rfl
  have h2 : entryOff 2 = 96 := rfl
  simp (disch := omega) only [initdirImage, h0, h1, h2, getLE_putEntry_outside, getLE_blit_outside]

theorem initdirImage_pool {k : Nat} (h : k < 5) :
    initdirImage uid now fb parent (96 + k) = (dotPool[k]?).getD 0 := by
  have h0 : entryOff 0 = 64 := rfl
  have h1 : entryOff 1 = 80 := rfl
  have h2 : entryOff 2 = 96 := rfl
  simp (disch := omega) only [initdirImage, h0, h1, h2, putEntry_outside, blit_inside, Nat.zero_add,
    Nat.add_sub_cancel_left]

/-- A new directory holds `.` and `..`. -/
theorem initdirImage_dir (hfb : fb < 2 ^ 32) (hp : parent < 2 ^ 32) :
    DirImage (initdirImage uid now fb parent) 1 (table fb parent []) := by
  have hbase : metaStrbase (initdirImage uid now fb parent) = 32 :=
    (initdirImage_header (by omega)).trans (newMeta_strbase (by decide))
  have hlen : metaStrlen (initdirImage uid now fb parent) = 5 :=
    (initdirImage_header (by omega)).trans (newMeta_strlen (by decide))
  have hflen : metaFlen (initdirImage uid now fb parent) = 101 :=
    (initdirImage_header (by omega)).trans (newMeta_flen (by decide))
  have hpool : ∀ k, k < 5 → initdirImage uid now fb parent (96 + k) = (dotPool[k]?).getD 0 :=
    fun k => initdirImage_pool
  refine ⟨hbase, by rw [hflen, hlen]; rfl,
    by rw [hlen]; exact (by decide : 64 + 16 * 2 + 5 ≤ 512 * 1), ?_⟩
  intro i e he
  rw [hlen]
  have h0 : entryOff 0 = 64 := rfl
  have h1 : entryOff 1 = 80 := rfl
  match i, he with
  | 0, he =>
    cases he
    have hname : entryName (initdirImage uid now fb parent) (entryOff 0) = 0 := by
      unfold initdirImage
      exact (getLE_putEntry_outside (by decide)).trans (putEntry_name (by decide))
    refine ⟨?_, ?_, ?_, ?_⟩
    · unfold initdirImage
      exact (getLE_putEntry_outside (by decide)).trans (putEntry_fb hfb)
    · unfold initdirImage
      exact (putEntry_outside (by decide)).trans putEntry_type
    · rw [hname]
      exact (by decide : 0 + 1 < 5)
    · rw [hname]
      refine strEq_strBytes dotName _ _ fun k hk => ?_
      have hk' : k ≤ 1 := hk
      refine (hpool k (by omega)).trans ?_
      rcases (by omega : k = 0 ∨ k = 1) with rfl | rfl <;> rfl
  | 1, he =>
    cases he
    have hname : entryName (initdirImage uid now fb parent) (entryOff 1) = 2 := by
      unfold initdirImage
      exact putEntry_name (by decide)
    refine ⟨?_, ?_, ?_, ?_⟩
    · unfold initdirImage
      exact putEntry_fb hp
    · unfold initdirImage
      exact putEntry_type
    · rw [hname]
      exact (by decide : 2 + 2 < 5)
    · rw [hname]
      refine strEq_strBytes dotdotName _ _ fun k hk => ?_
      have hk' : k ≤ 2 := hk
      refine Eq.trans ?_ ((hpool (2 + k) (by omega)).trans ?_)
      · exact congrArg _ (Nat.add_assoc 96 2 k)
      · rcases (by omega : k = 0 ∨ k = 1 ∨ k = 2) with rfl | rfl | rfl <;> rfl
  | i + 2, he => simp [table] at he

theorem newDir_holds {uid : UInt32} (hfb : fb < 2 ^ 32) (hp : parent < 2 ^ 32) :
    Holds (initdirImage uid.toNat now fb parent) 1 fb (newDir uid parent) where
  uid := (initdirImage_header (by omega)).trans (newMeta_uid uid.toNat_lt)
  flags := by
    have h0 : entryOff 0 = 64 := rfl
    have h1 : entryOff 1 = 80 := rfl
    have h2 : entryOff 2 = 96 := rfl
    simp (disch := omega) only [initdirImage, metaFlags, h0, h1, h2, putEntry_outside, blit_outside]
    exact newMeta_flags
  blocks := (initdirImage_header (by omega)).trans (newMeta_blocks (by decide))
  node := initdirImage_dir hfb hp

end InitDir

/-- The state after a new object `o` appeared at `fb`. -/
structure Appeared (fs : Fs) (chain : Nat → List Nat) (fb : Nat) (o : Obj) (w w' : World) :
    Prop where
  fresh : fs fb = none
  lt : fb < 2 ^ 23
  store : Store w'.dt (Function.update fs fb (some o)) (Function.update chain fb [fb])
  kept : ∀ d, Kept fs chain (Function.update chain fb [fb]) d w.dt w'.dt
  later : Later w.env w'.env
  ipIndex : w'.ipIndex = w.ipIndex
  maxBlockNum : w'.dt.sb.maxBlockNum = w.dt.sb.maxBlockNum
  first : FirstFree w.dt fb
  fat : ∀ i, i ≠ fb → w'.dt.fat i = w.dt.fat i
  fatNum_le : w.dt.sb.fatNum ≤ w'.dt.sb.fatNum

theorem appeared {w w' : World} {image : Bytes} {size fb : Nat} {o : Obj}
    (hst : Store w.dt fs chain) (hc : Created w image size fb w') (hh : Holds image 1 fb o)
    (hext : extent image o.node ≤ size) (hmeta : 64 ≤ size) : Appeared fs chain fb o w w' := by
  have hw := hc.written
  obtain ⟨hfresh, hstore⟩ := hst.create (o := o) hc fun img himg => by
    have hagree : Agree img image 0 (min size 512) := fun j _ hj => himg j (by omega) (by omega)
    have hle := hh.extent_le
    exact hh.congr hagree (by omega) (by omega)
  have hlt : fb < w'.dt.sb.fatNum := hw.lt fb (by simp)
  refine ⟨hfresh, hlt.trans hw.sized.fatNum_lt, hstore, fun d m o₁ hm _ => ?_, hw.later, hw.ipIndex,
    hw.maxBlockNum, ⟨hc.free, hc.first⟩, fun i hi => hw.fat i (by simpa using hi), hw.fatNum_le⟩
  have hne : m ≠ fb := by
    rintro rfl
    rw [hfresh] at hm
    cases hm
  have hnew : ∀ c ∈ chain m, c ∉ [fb] := by
    intro c hc' hcf
    rw [List.mem_singleton.mp hcf] at hc'
    exact (hst.obj m o₁ hm).fat_ne_zero hc' hc.free
  refine ⟨Function.update_of_ne hne _ _, fun c hc' => ⟨hw.fat c (hnew c hc'), ?_⟩⟩
  exact hw.data c ((hst.obj m o₁ hm).lt c hc') (hnew c hc')

theorem wp_newFile {w : World} {uid : UInt32} {mode : UInt8} (hst : Store w.dt fs chain)
    (hmem : w.env.heap .initfile 0 ≠ none) (hH : H ∨ (Ample w.env ∧ Free w.dt 0)) :
    wpOr H (initfile uid mode)
      (fun r w' => ∃ fb, r = some fb ∧ Appeared fs chain fb (newFile uid mode) w w') w := by
  refine wp_mono (wp_initfile hst.sized hst.topFree hH) fun r w' hr => ?_
  cases r with
  | none => exact absurd hr hmem
  | some fb =>
    exact ⟨fb, rfl, appeared hst hr (newFile_holds uid mode _ fb) (Nat.le_refl _) (Nat.le_refl _)⟩

theorem wp_newDir {w : World} {uid : UInt32} {parent : Nat} (hst : Store w.dt fs chain)
    (hmem : w.env.heap .initdir 0 ≠ none) (hp : parent < 2 ^ 32)
    (hH : H ∨ (Ample w.env ∧ Free w.dt 0)) :
    wpOr H (initdir uid (some parent))
      (fun r w' => ∃ fb, r = some fb ∧ Appeared fs chain fb (newDir uid parent) w w' ∧
        metaCount (w'.dt.data fb) = 3) w := by
  refine wp_mono (wp_initdir hst.sized hst.topFree hH) fun r w' hr => ?_
  cases r with
  | none => exact absurd hr hmem
  | some fb =>
    have hlt : fb < 2 ^ 23 :=
      (hr.written.lt fb (by simp)).trans hr.written.sized.fatNum_lt
    have hh : Holds (initdirImage uid.toNat w.env.now fb parent) 1 fb (newDir uid parent) :=
      newDir_holds (by omega) hp
    have hext : extent (initdirImage uid.toNat w.env.now fb parent) (newDir uid parent).node
      ≤ 101 := by
      simp only [extent, newDir]
      rw [show metaFlen (initdirImage uid.toNat w.env.now fb parent) = 101 from
        (initdirImage_header (by omega)).trans (newMeta_flen (by decide))]
    have hheader := headed_written hr.written Nat.one_pos (show 64 ≤ 101 by decide)
    have hcount : metaCount (w'.dt.data fb) = 3 :=
      (hheader 4 4 (by decide)).trans ((initdirImage_header (by omega)).trans
        (newMeta_count (by decide)))
    exact ⟨fb, rfl, appeared hst hr hh hext (by decide), hcount⟩

/-! ## Room -/

/-- Room for a new entry of the directory `d` in the sectors `cs`: a slot for the object, and
behind `d` enough free slots for a table of `n` sectors. -/
def RoomToEnter (dt : Dtree) (cs : List Nat) (d n : Nat) : Prop :=
  ∃ f, FirstFree dt f ∧ Affords dt f ∧ Spare (freed (setFat dt f ENDSEC) cs) d (n - 1)

theorem RoomToEnter.free {dt : Dtree} {cs : List Nat} {d n : Nat} (h : RoomToEnter dt cs d n) :
    Free dt 0 := by
  obtain ⟨f, hf, haff, -⟩ := h
  exact ⟨f, Nat.zero_le _, hf.1, haff⟩

/-- Once the object has its slot, the room left is for the table. -/
theorem RoomToEnter.table {w w' : World} {cs : List Nat} {d n fb : Nat} {o : Obj}
    (h : RoomToEnter w.dt cs d n) (ha : Appeared fs chain fb o w w') :
    Spare (freed w'.dt cs) d (n - 1) := by
  obtain ⟨f, hf, -, hspare⟩ := h
  obtain rfl := hf.unique ha.first
  refine hspare.mono (fun c hc => ?_) fun c hc => hc.imp_left fun hlt => hlt.trans_le ha.fatNum_le
  by_cases hcs : c ∈ cs
  · exact cleared_of_mem hcs
  · have hfat : (setFat w.dt f ENDSEC).fat c = 0 := (cleared_of_not_mem hcs).symm.trans hc
    have hne : c ≠ f := by
      rintro rfl
      rw [show (setFat w.dt c ENDSEC).fat c = ENDSEC from if_pos rfl] at hfat
      cases hfat
    rw [show (freed w'.dt cs).fat c = w'.dt.fat c from cleared_of_not_mem hcs, ha.fat c hne]
    exact (if_neg hne).symm.trans hfat

/-- A table that does not get longer finds room in its own sectors. -/
theorem spare_own {dt : Dtree} {d n : Nat} {cs : List Nat} {rest : List Nat} (hcs : cs = d :: rest)
    (hsort : cs.Pairwise (· < ·)) (hlt : ∀ c ∈ cs, c < dt.sb.fatNum) (hn : n ≤ cs.length) :
    Spare (freed dt cs) d (n - 1) := by
  subst hcs
  simp only [List.length_cons] at hn
  refine ⟨rest.take (n - 1), by simp; omega, ?_, fun c hc => ?_⟩
  · have htake : (d :: rest.take (n - 1)).Sublist (d :: rest) :=
      (List.take_sublist _ _).cons_cons d
    exact hsort.sublist htake
  · have hmem : c ∈ d :: rest := List.mem_cons_of_mem _ (List.mem_of_mem_take hc)
    exact ⟨cleared_of_mem hmem, .inl (hlt c hmem)⟩

end Sbpfs.Cfs.ObjectSpec
