import Sbpfs.Cfs.NamespaceSpec

/-!
# What `c_move` does to the tables

Once the tables are read, a move copies the new name, moves the entry and writes the tables back
over their own sectors. What they hold then is another matter; every other object stays.
-/
namespace Sbpfs.Cfs.MoveSpec

open Sbpfs.Lib.Program Sbpfs.Lib.Memory Sbpfs.Lib.Chain
open Sbpfs.Cfs.Layout Sbpfs.Cfs.Rules Sbpfs.Cfs.FatSpec Sbpfs.Cfs.File Sbpfs.Cfs.FileSpec
open Sbpfs.Cfs.Namespace Sbpfs.Cfs.Image Sbpfs.Cfs.DiskStore
open Sbpfs.Cfs.LookupSpec Sbpfs.Cfs.Edit Sbpfs.Cfs.ObjectSpec Sbpfs.Cfs.NamespaceSpec
open Sbpfs.Spec.FileTree Sbpfs.Spec.Resolve

-- the rules are used by name; a program is never evaluated
attribute [local irreducible] wpOr

variable {fs : Fs} {chain : Nat → List Nat} {w : World} {uid : UInt32} {H : Prop}

/-- The number of sectors in the header `b` after `c_move` has copied the new name to the place
the length of the pool gives, counted from the header and not from the pool. -/
def renamedBlocks (b : Bytes) (name : CStr) : Nat :=
  metaBlocks (blit b (metaStrlen b) (strBytes name) 0 (name.length + 1))

/-- The new name fits the buffer for the table of `s`, and there is room for as many sectors as
the header asks for then. -/
structure RenameFits (dt : Dtree) (chain : Nat → List Nat) (s : Nat) (name : CStr) : Prop where
  inside : metaStrlen (dt.data s) + name.length + 1 ≤ 512 * (metaBlocks (dt.data s) + 1)
  room : Spare (freed dt (chain s)) s (renamedBlocks (dt.data s) name - 1)

/-- The table of `d` with one more entry and its name fits the buffer. -/
def TransferFits (dt : Dtree) (d : Nat) (name : CStr) : Prop :=
  64 + metaStrbase (dt.data d) + 16 + metaStrlen (dt.data d) + name.length + 1
    ≤ 512 * (metaBlocks (dt.data d) + 1)

def MoveFits (dt : Dtree) (chain : Nat → List Nat) (s d : Nat) (name : CStr) : Prop :=
  if s = d then RenameFits dt chain s name else TransferFits dt d name

/-- What the move copies stays inside the buffers, and there is one for the pool. -/
def CopyFits (dt : Dtree) (e : Env) (s d : Nat) (name : CStr) : Prop :=
  if s = d then metaStrlen (dt.data s) + name.length + 1 ≤ 512 * (metaBlocks (dt.data s) + 1)
  else TransferFits dt d name ∧ e.heap .pool 0 ≠ none

theorem MoveFits.copyFits {dt : Dtree} {e : Env} {s d : Nat} {name : CStr}
    (h : MoveFits dt chain s d name) (hmem : Ample e) : CopyFits dt e s d name := by
  unfold MoveFits at h
  unfold CopyFits
  by_cases hsame : s = d
  · rw [if_pos hsame] at h ⊢
    exact h.inside
  · rw [if_neg hsame] at h ⊢
    exact ⟨h, hmem.heap _ _⟩

/-- What a table written anew leaves of the other chains. -/
structure Rechained (cs : List Nat) (w w' : World) : Prop where
  sized : Sized w'.dt
  topFree : TopFree w'.dt
  fatNum_le : w.dt.sb.fatNum ≤ w'.dt.sb.fatNum
  later : Later w.env w'.env
  fat : ∀ c, c ∉ cs → w.dt.fat c ≠ 0 → w'.dt.fat c = w.dt.fat c
  data : ∀ c, c < w.dt.sb.fatNum → c ∉ cs → w.dt.fat c ≠ 0 → w'.dt.data c = w.dt.data c

/-- An object with other sectors stays where it is. -/
theorem Rechained.objAt {cs ds : List Nat} {n : Nat} {o : Obj} {w' : World}
    (h : Rechained cs w w') (hat : ObjAt w.dt n o ds) (hdis : cs.Disjoint ds) :
    ObjAt w'.dt n o ds :=
  hat.frame h.fatNum_le
    (fun c hc => h.fat c (fun hm => hdis hm hc) (hat.fat_ne_zero hc))
    fun c hc => h.data c (hat.lt c hc) (fun hm => hdis hm hc) (hat.fat_ne_zero hc)

/-- `do_writefile` over the chain of an object, whatever the image says of its sectors. -/
theorem wp_rewriteChain {d size : Nat} {o : Obj} {cs : List Nat} {img : Bytes} (hs : Sized w.dt)
    (ht : TopFree w.dt) (hat : ObjAt w.dt d o cs) (hsize : size < 2 ^ 64)
    (hH : H ∨ (Ample w.env ∧ Spare (freed w.dt cs) d (metaBlocks img - 1))) :
    wpOr H (doWritefile d img size) (fun _ => Rechained cs w) w := by
  have hlen := (hat.length_le hs).trans_lt hs.fatNum_lt
  have hlink := hat.linked
  have hlt := hat.lt
  obtain ⟨rest, rfl⟩ := hat.cons
  have hend : ENDSEC ∉ d :: rest := fun hm => hs.ne_endsec (hlt _ hm) rfl
  cases hn : metaBlocks img with
  | zero =>
    -- the chain is freed and nothing is written
    unfold doWritefile
    refine wp_call (wp_resetFat hlink (fun c hc => (hlt c hc).trans hs.fatNum_lt_slots) hend
      (hH.imp_right fun h => hlen.trans h.1.fuel)) ?_
    rintro _ _ rfl
    rw [hn, writeChain]
    exact (wp_pure _ _ _).mpr ⟨freed_sized hs _, freed_topFree ht _, Nat.le_refl _, Later.refl _,
      fun c hc _ => cleared_of_not_mem hc, fun _ _ _ _ => rfl⟩
  | succ n =>
    rw [hn, Nat.add_sub_cancel] at hH
    refine wp_mono (wp_doWritefile hs ht hlink hlt hn hsize
      (hH.imp_right fun h => ⟨h.1, hlen, h.2⟩)) ?_
    rintro _ w' ⟨cs, hwr⟩
    have hnot : ∀ c, c ∉ d :: rest → w.dt.fat c ≠ 0 → c ∉ cs := by
      intro c hc hfat hm
      rcases hwr.fresh c hm with rfl | hz
      · exact hc (List.mem_cons_self ..)
      · exact hfat ((cleared_of_not_mem hc).symm.trans hz)
    exact ⟨hwr.sized, hwr.topFree, hwr.fatNum_le, hwr.later,
      fun c hc hfat => (hwr.fat c (hnot c hc hfat)).trans (cleared_of_not_mem hc),
      fun c hlt hc hfat => hwr.data c hlt (hnot c hc hfat)⟩

/-- Every object but `s` and `d` is where it was. -/
structure Elsewhere (fs : Fs) (chain : Nat → List Nat) (s d : Nat) (dt : Dtree) : Prop where
  sized : Sized dt
  obj : ∀ {n : Nat} {o : Obj}, fs n = some o → n ≠ s → n ≠ d → ObjAt dt n o (chain n)

/-- The sizes in a directory's header. -/
structure Heads (b : Bytes) (strbase strlen blocks : Nat) : Prop where
  strbase : metaStrbase b = strbase
  strlen : metaStrlen b = strlen
  blocks : metaBlocks b = blocks

section Heads

variable {α : Type} {Q : α → World → Prop} {b : Buf} {f : Buf → CM α}
  {strbase strlen blocks : Nat}

/-- Bytes behind the header. -/
theorem wp_copyIn_behind {doff soff n : Nat} {src : Bytes}
    (h : Heads b.bytes strbase strlen blocks) (hlow : 64 ≤ doff) (hle : doff + n ≤ b.size)
    (hf : ∀ b' : Buf, b'.size = b.size → Heads b'.bytes strbase strlen blocks → wpOr H (f b') Q w) :
    wpOr H (b.copyIn doff src soff n >>= f) Q w := by
  rw [wp_bind, wp_copyIn]
  refine ⟨hle, hf _ rfl ⟨?_, ?_, ?_⟩⟩
  · exact (getLE_blit_outside (by omega)).trans h.strbase
  · exact (getLE_blit_outside (by omega)).trans h.strlen
  · exact (getLE_blit_outside (by omega)).trans h.blocks

theorem wp_store_strbase {v : Nat} (h : Heads b.bytes strbase strlen blocks) (hv : v < 2 ^ 64)
    (hle : 64 ≤ b.size)
    (hf : ∀ b' : Buf, b'.size = b.size → Heads b'.bytes v strlen blocks → wpOr H (f b') Q w) :
    wpOr H (b.store 40 8 v >>= f) Q w := by
  rw [wp_bind, wp_store]
  refine ⟨by omega, hf _ rfl ⟨getLE_putLE hv, ?_, ?_⟩⟩
  · exact (getLE_putLE_ne (by omega)).trans h.strlen
  · exact (getLE_putLE_ne (by omega)).trans h.blocks

/-- Any field but the number of sectors. -/
theorem wp_store_elsewhere {off k v : Nat} (hoff : off + k ≤ 56 ∨ 60 ≤ off) (hle : off + k ≤ b.size)
    (hf : ∀ b' : Buf, b'.size = b.size → metaBlocks b'.bytes = metaBlocks b.bytes →
      wpOr H (f b') Q w) : wpOr H (b.store off k v >>= f) Q w := by
  rw [wp_bind, wp_store]
  exact ⟨hle, hf _ rfl (getLE_putLE_ne (by omega))⟩

end Heads

section Move

variable {s d i : Nat} {e : Ent} {dname : CStr} {sdata ddata : Buf} {w₁ : World}

/-- Both tables are written back over their own sectors. -/
theorem wp_writeTables (hst : Store w.dt fs chain) {os od : Obj} (hso : fs s = some os)
    (hdo : fs d = some od) (hne : s ≠ d) {simg dimg : Bytes}
    (hH : H ∨ (Ample w.env ∧ Ordered fs chain ∧ metaBlocks simg = (chain s).length ∧
      metaBlocks dimg = (chain d).length)) :
    wpOr H (do
      doWritefile s simg (metaFlen simg)
      doWritefile d dimg (metaFlen dimg)
      return (0 : Int)) (fun _ w' => Elsewhere fs chain s d w'.dt) w := by
  have hsat := hst.obj s os hso
  have hdat := hst.obj d od hdo
  obtain ⟨srest, hs⟩ := hsat.cons
  obtain ⟨drest, hd⟩ := hdat.cons
  refine wp_call (wp_rewriteChain hst.sized hst.topFree hsat (getLE_lt _ 8 8)
    (hH.imp_right fun h => ⟨h.1, spare_own hs (h.2.1 s os hso) hsat.lt (Nat.le_of_eq h.2.2.1)⟩))
    fun _ w₁ hre => ?_
  -- the sectors of the other table are not among those of the first one
  have hdat₁ := hre.objAt hdat (hst.disjoint s d os od hso hdo hne)
  refine wp_call (wp_rewriteChain hre.sized hre.topFree hdat₁ (getLE_lt _ 8 8)
    (hH.imp_right fun h => ⟨h.1.later hre.later,
      spare_own hd (h.2.1 d od hdo) hdat₁.lt (Nat.le_of_eq h.2.2.2)⟩)) fun _ w₂ hre' => ?_
  refine (wp_pure _ _ _).mpr ⟨hre'.sized, fun {n o} ho hns hnd => ?_⟩
  exact hre'.objAt (hre.objAt (hst.obj n o ho) (hst.disjoint s n os o hso ho (Ne.symm hns)))
    (hst.disjoint d n od o hdo ho (Ne.symm hnd))

/-- The rename inside one directory. -/
theorem wp_moveSame (hst : Store w.dt fs chain)
    (hready : Ready fs chain s d e dname i sdata ddata w w₁)
    (hinside : metaStrlen (w.dt.data s) + dname.length + 1 ≤ 512 * (metaBlocks (w.dt.data s) + 1))
    (hH : H ∨ (Ample w.env ∧
      Spare (freed w.dt (chain s)) s (renamedBlocks (w.dt.data s) dname - 1))) :
    wpOr H (moveSame s sdata i dname) (fun _ w' => Elsewhere fs chain s s w'.dt) w₁ := by
  obtain ⟨suid, sflags, sp, skids, hso, hsh⟩ := hready.source
  have hst₁ : Store w₁.dt fs chain := by rw [hready.same.dt]; exact hst
  have hat := hst₁.obj s _ hso
  have hsdir : DirImage sdata.bytes (chain s).length (table s sp skids) := hsh.node
  have hi : i < (table s sp skids).length := by
    have hget := hready.entry
    rw [ents_of_dir hso] at hget
    exact (List.getElem?_eq_some_iff.mp hget).1
  have hle := hsdir.le
  have hpos := hat.length_pos
  have hsize := hready.source_size
  have hread := hready.source_read
  have hplen : metaStrlen (w.dt.data s) = metaStrlen sdata.bytes :=
    (getLE_congr (hread.mono (Nat.zero_le _) (by omega))).symm
  have hblocks : metaBlocks (w.dt.data s) = (chain s).length :=
    (getLE_congr (hread.mono (Nat.zero_le _) (by omega))).symm.trans hsh.blocks
  rw [hplen, hblocks] at hinside
  have hoff : entryOff i = 64 + 16 * i := rfl
  unfold moveSame
  rw [wp_bind, wp_getNow, wp_bind, wp_store]
  refine ⟨by omega, ?_⟩
  have hnow : metaStrlen (putLE sdata.bytes 32 8 w₁.env.now) = metaStrlen sdata.bytes :=
    getLE_putLE_ne (by omega)
  dsimp only
  rw [hnow, wp_bind, wp_copyIn]
  refine ⟨by simp only; omega, ?_⟩
  -- only the copy of the name may change the number of sectors
  have hcopy : metaBlocks (blit (putLE sdata.bytes 32 8 w₁.env.now) (metaStrlen sdata.bytes)
      (strBytes dname) 0 (dname.length + 1)) = renamedBlocks (w.dt.data s) dname := by
    unfold renamedBlocks
    rw [hplen]
    refine getLE_congr fun j h1 h2 => ?_
    unfold blit
    rw [putLE_outside (by omega), hready.source_read j (Nat.zero_le _) (by omega)]
  generalize blit (putLE sdata.bytes 32 8 w₁.env.now) (metaStrlen sdata.bytes) (strBytes dname) 0
    (dname.length + 1) = img at hcopy ⊢
  refine wp_store_elsewhere (by omega) (by simp only; omega) fun b₁ hb₁ h₁ => ?_
  refine wp_store_elsewhere (by omega) (by simp only [hb₁]; omega) fun b₂ hb₂ h₂ => ?_
  refine wp_store_elsewhere (by omega) (by simp only [hb₂, hb₁]; omega) fun b₃ hb₃ h₃ => ?_
  have hblocks₃ : metaBlocks b₃.bytes = renamedBlocks (w.dt.data s) dname :=
    h₃.trans (h₂.trans (h₁.trans hcopy))
  rw [← hblocks₃, show freed w.dt (chain s) = freed w₁.dt (chain s) by rw [hready.same.dt]] at hH
  refine wp_call (wp_rewriteChain hst₁.sized hst₁.topFree hat (getLE_lt _ 8 8)
    (hH.imp_right fun h => ⟨h.1.later hready.same.later, h.2⟩)) fun _ w₂ hre => ?_
  exact (wp_pure _ _ _).mpr ⟨hre.sized, fun {n o} ho hns _ =>
    hre.objAt (hst₁.obj n o ho) (hst₁.disjoint s n _ o hso ho (Ne.symm hns))⟩

/-- The move from one directory to another. -/
theorem wp_moveAcross (hst : Store w.dt fs chain) (hne : s ≠ d)
    (hready : Ready fs chain s d e dname i sdata ddata w w₁) (hfits : TransferFits w.dt d dname)
    (hpool : w.env.heap .pool 0 ≠ none) (hH : H ∨ (Ample w.env ∧ Ordered fs chain)) :
    wpOr H (moveAcross s d sdata ddata i dname) (fun _ w' => Elsewhere fs chain s d w'.dt) w₁ := by
  obtain ⟨suid, sflags, sp, skids, hso, hsh⟩ := hready.source
  obtain ⟨duid, dflags, dp, dkids, hdo, hdh⟩ := hready.target
  have hst₁ : Store w₁.dt fs chain := by rw [hready.same.dt]; exact hst
  have hsdir : DirImage sdata.bytes (chain s).length (table s sp skids) := hsh.node
  have hddir : DirImage ddata.bytes (chain d).length (table d dp dkids) := hdh.node
  have hi : i < (table s sp skids).length := by
    have hget := hready.entry
    rw [ents_of_dir hso] at hget
    exact (List.getElem?_eq_some_iff.mp hget).1
  have hfield : ∀ {off m : Nat}, off + m ≤ 64 →
      getLE (w.dt.data d) off m = getLE ddata.bytes off m := fun h =>
    (getLE_congr (hready.target_read.mono (Nat.zero_le _) (by omega))).symm
  have hroom : 64 + metaStrbase ddata.bytes + 16 + metaStrlen ddata.bytes + dname.length + 1
      ≤ 512 * ((chain d).length + 1) := by
    have hblocks : metaBlocks (w.dt.data d) = (chain d).length :=
      (hfield (by omega)).trans hdh.blocks
    unfold TransferFits at hfits
    rwa [hblocks, show metaStrbase (w.dt.data d) = metaStrbase ddata.bytes from hfield (by omega),
      show metaStrlen (w.dt.data d) = metaStrlen ddata.bytes from hfield (by omega)] at hfits
  have hbase := hddir.strbase
  have hdle := hddir.le
  have hdsize := hready.target_size
  have hssize := hready.source_size
  have hoff : entryOff i = 64 + 16 * i := rfl
  have hlt : metaStrlen ddata.bytes < 2 ^ 64 := getLE_lt _ 48 8
  have hsectors :=
    ((hst.obj d _ hdo).length_le hst.sized).trans_lt hst.sized.fatNum_lt
  have hgrown : u64 (metaStrbase ddata.bytes + 16) = metaStrbase ddata.bytes + 16 :=
    Nat.mod_eq_of_lt (by omega)
  rw [← hready.others .pool (by decide) (by decide) (by decide)] at hpool
  obtain ⟨pool, hpool⟩ := Option.ne_none_iff_exists'.mp hpool
  have hheads : Heads ddata.bytes (metaStrbase ddata.bytes) (metaStrlen ddata.bytes)
      (chain d).length := ⟨rfl, rfl, hdh.blocks⟩
  unfold moveAcross
  rw [wp_bind, wp_malloc, hpool]
  dsimp only [Option.map_some]
  rw [wp_bind, wp_copyIn]
  refine ⟨(Nat.zero_add _).le, ?_⟩
  dsimp only
  simp only [metaSize, entrySize]
  -- the table of `d` makes place for the entry, and gets the name behind its pool
  refine wp_copyIn_behind hheads (by omega) (by omega) fun b₁ hb₁ h₁ => ?_
  rw [h₁.strbase, hgrown]
  refine wp_store_strbase h₁ (by omega) (by omega) fun b₂ hb₂ h₂ => ?_
  rw [h₂.strbase, h₂.strlen]
  refine wp_copyIn_behind h₂ (by omega) (by omega) fun b₃ hb₃ h₃ => ?_
  rw [h₃.strbase, h₃.strlen]
  refine wp_copyIn_behind h₃ (by omega) (by omega) fun b₄ hb₄ h₄ => ?_
  refine wp_store_elsewhere (by omega) (by omega) fun b₅ hb₅ h₅ => ?_
  have hremove : wpOr H (doRemoveEntry sdata (entryOff i)) (fun r w' =>
      r.2.size = sdata.size ∧ w'.dt = w₁.dt ∧
        (H ∨ (Ample w'.env ∧ metaBlocks r.2.bytes = (chain s).length)))
      { w₁ with env := w₁.env.pop .pool } := by
    refine wp_mono (wp_doRemoveEntry hsdir hi (by omega)) ?_
    rintro r w' ⟨rfl, hr⟩
    have hlater : Later w.env ((w₁.env.pop .pool).pop .tail) :=
      hready.same.later.trans ((Later.pop _ _).trans (Later.pop _ _))
    rcases hr with ⟨rfl, -⟩ | rfl
    · exact ⟨rfl, rfl, hH.imp_right fun h => ⟨h.1.later hlater, hsh.blocks⟩⟩
    · exact ⟨rfl, rfl, hH.imp_right fun h =>
        ⟨h.1.later hlater, (removed_blocks (by omega)).trans hsh.blocks⟩⟩
  refine wp_call hremove fun q w₂ hq => ?_
  obtain ⟨r, sdata'⟩ := q
  obtain ⟨hsize', hdt, hkept⟩ := hq
  have hst₂ : Store w₂.dt fs chain := by rw [hdt]; exact hst₁
  have hdb : metaBlocks b₅.bytes = (chain d).length := h₅.trans h₄.blocks
  dsimp only at hsize' hkept ⊢
  rw [wp_ite]
  split
  · refine wp_store_elsewhere (by omega) (by omega) fun b₆ _ h₆ => ?_
    refine wp_store_elsewhere (by omega) (by omega) fun sdata'' _ hs'' => ?_
    refine wp_writeTables hst₂ hso hdo hne ?_
    rcases hH with h | ⟨-, hord⟩
    · exact .inl h
    · exact hkept.imp_right fun h => ⟨h.1, hord, hs''.trans h.2, h₆.trans hdb⟩
  · refine wp_writeTables hst₂ hso hdo hne ?_
    rcases hH with h | ⟨-, hord⟩
    · exact .inl h
    · exact hkept.imp_right fun h => ⟨h.1, hord, h.2, hdb⟩

/-- A move from `s` to `d` that is not refused leaves every other object where it is. -/
theorem wp_cMove_elsewhere (hst : Store w.dt fs chain) (ht : Tree fs) {srcpath dstpath : CStr}
    {s d : Nat} {e : Ent} {name : CStr}
    (hplan : movePlan (view fs) srcpath dstpath uid = .ok (s, d, e, name))
    (hfits : CopyFits w.dt w.env s d name)
    (hH : H ∨ (Ample w.env ∧ Ordered fs chain ∧ MoveFits w.dt chain s d name)) :
    wpOr H (cMove srcpath dstpath uid) (fun _ w' => Elsewhere fs chain s d w'.dt) w := by
  have hkept : ∀ w', Same w w' → Elsewhere fs chain s d w'.dt := fun w' hs => by
    rw [hs.dt]
    exact ⟨hst.sized, fun {n o} ho _ _ => hst.obj n o ho⟩
  refine wp_cMove_until hst ht (fun _ _ w' hs => hkept w' hs) (fun _ _ w' hs => hkept w' hs)
    (fun s' d' e' name' i sdata ddata w₁ hplan' _ hready => ?_) (hH.imp_right And.left)
  cases hplan.symm.trans hplan'
  unfold CopyFits at hfits
  unfold MoveFits at hH
  by_cases hsame : s = d
  · subst hsame
    rw [if_pos rfl] at hfits hH ⊢
    exact wp_moveSame hst hready hfits (hH.imp_right fun h => ⟨h.1, h.2.2.room⟩)
  · rw [if_neg hsame] at hfits hH ⊢
    exact wp_moveAcross hst hsame hready hfits.1 hfits.2
      (hH.imp_right fun h => ⟨h.1, h.2.1⟩)

end Move

end Sbpfs.Cfs.MoveSpec
