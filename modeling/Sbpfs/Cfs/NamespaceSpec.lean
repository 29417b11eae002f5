import Sbpfs.Cfs.ObjectSpec

/-!
# The operations on names

Each of `c_mkdir`, `c_open`, `c_remove`, `c_rmdir`, `c_chown` and `c_chmod` does what
its plan on the file tree says: it refuses with the plan's code and leaves the image
alone, or makes exactly the planned change of the tree. A refused `c_move` leaves the
image alone as well.
-/
namespace Sbpfs.Cfs.NamespaceSpec

open Sbpfs.Lib.Program Sbpfs.Lib.Memory Sbpfs.Lib.Chain
open Sbpfs.Cfs.Layout Sbpfs.Cfs.Rules Sbpfs.Cfs.FatSpec Sbpfs.Cfs.File Sbpfs.Cfs.FileSpec
open Sbpfs.Cfs.Lookup Sbpfs.Cfs.Namespace Sbpfs.Cfs.Image Sbpfs.Cfs.DiskStore
open Sbpfs.Cfs.LookupSpec Sbpfs.Cfs.Edit Sbpfs.Cfs.ObjectSpec
open Sbpfs.Spec.FileTree Sbpfs.Spec.Resolve

-- the rules are used by name; a program is never evaluated
attribute [local irreducible] wpOr

variable {fs : Fs} {chain : Nat → List Nat} {H : Prop}

/-- What the operations see of a file tree. -/
def view (fs : Fs) : View where
  ents := fs.ents
  may := fun uid fb op =>
    match fs fb with
    | some o => perm uid o op
    | none => 0

theorem view_may {d : Nat} {o : Obj} (h : fs d = some o) (uid : UInt32) (op : UInt8) :
    (view fs).may uid d op = perm uid o op := by
  simp only [view, h]

/-- The directory of a target is a directory of the tree. -/
theorem target_dir (h : Tree fs) {path name : CStr} {bad notDir : Int} {d : Nat}
    (ht : target (view fs) path bad notDir = .ok (d, name)) :
    ∃ uid flags p kids, fs d = some ⟨uid, flags, .dir p kids⟩ := by
  unfold target at ht
  split at ht
  · cases ht
  · split at ht
    · cases ht
    · rename_i e hr
      split at ht
      · rename_i htype
        cases ht
        exact dir_of_typed (resolve_typed h hr) htype
      · cases ht

section Steps

variable {w : World} {α : Type} {Q : α → World → Prop}

/-- Look a directory up: out of memory, nothing there, no directory, or the directory. -/
theorem wp_lookupDir (hst : Store w.dt fs chain) (ht : Tree fs) {dir : CStr} {notDir : α}
    {g : Int → α} {k : FileEntry → CM α}
    (hoom : OutOfMemory w.env →
      ((resolve fs.ents dir).isSome → ¬ Env.Gives w.env .lookup (tables dir)) →
      ∀ w', Same w w' → Q (g (-9)) w')
    (hnone : resolve fs.ents dir = none → ∀ w', Same w w' → Q (g 1) w')
    (hfile : ∀ e, resolve fs.ents dir = some e → e.type ≠ S_DIR → ∀ w', Same w w' → Q notDir w')
    (hok : ∀ (parent : FileEntry) (e : Ent), resolve fs.ents dir = some e → e.type = S_DIR →
      parent.fb = e.fb → ∀ w', Took .lookup (tables dir) w w' → wpOr H (k parent) Q w')
    (hH : H ∨ Ample w.env) :
    wpOr H (do
      match ← cLookup dir with
      | .error ret => return g ret
      | .ok parent => if parent.type ≠ S_DIR then return notDir else k parent) Q w := by
  refine wp_call (wp_cLookup_took hst ht dir hH) ?_
  rintro r w₁ ⟨⟨hsame, ⟨rfl, hmem⟩ | hpost⟩, hreads⟩
  · refine (wp_pure _ _ _).mpr (hoom hmem (fun h => ?_) w₁ hsame)
    rcases hreads h with ⟨-, hno⟩ | ⟨⟨p, hp⟩, -⟩
    · exact hno
    · cases hp
  cases hr : resolve fs.ents dir with
  | none =>
    simp only [hr] at hpost
    subst hpost
    exact (wp_pure _ _ _).mpr (hnone hr w₁ hsame)
  | some e =>
    simp only [hr] at hpost
    obtain ⟨parent, rfl, hfb, htype⟩ := hpost
    have htook : Took .lookup (tables dir) w w₁ := by
      rcases hreads (by rw [hr]; rfl) with ⟨hp, -⟩ | ⟨-, htook⟩
      · cases hp
      · exact htook
    by_cases hdir : e.type = S_DIR
    · have hdir' : parent.type = S_DIR := htype.trans hdir
      simp only [hdir', ne_eq, not_true_eq_false, if_false]
      exact hok parent e hr hdir hfb w₁ htook
    · have hdir' : parent.type ≠ S_DIR := by rwa [htype]
      simp only [hdir', ne_eq, not_false_eq_true, if_true]
      exact (wp_pure _ _ _).mpr (hfile e hr hdir w₁ hsame)

/-- The beginning most operations share: split the path and look the directory up. -/
theorem wp_atTarget {Q : Int → World → Prop} (hst : Store w.dt fs chain) (ht : Tree fs)
    {path : CStr} {bad notDir : Int} {g : Int → Int} {k : FileEntry → CStr → CM Int}
    (hg : g 1 = bad)
    (hno : ∀ c, target (view fs) path bad notDir = .error c → ∀ w', Same w w' → Q c w')
    (hoom : OutOfMemory w.env →
      (∀ a, target (view fs) path bad notDir = .ok a →
        ¬ Env.Gives w.env .lookup (tablesAbove path)) → ∀ w', Same w w' → Q (g (-9)) w')
    (hok : ∀ (parent : FileEntry) (name : CStr),
      target (view fs) path bad notDir = .ok (parent.fb, name) →
      ∀ w', Took .lookup (tablesAbove path) w w' → wpOr H (k parent name) Q w')
    (hH : H ∨ Ample w.env) :
    wpOr H (match getFilenameFromPath path with
      | none => return bad
      | some (dir, name) => do
        match ← cLookup dir with
        | .error ret => return g ret
        | .ok parent => if parent.type ≠ S_DIR then return notDir else k parent name) Q w := by
  unfold target tablesAbove at hoom hok
  unfold target at hno
  cases hf : getFilenameFromPath path with
  | none =>
    simp only [hf] at hno
    exact (wp_pure _ _ _).mpr (hno bad rfl w (Same.refl w))
  | some q =>
    obtain ⟨dir, name⟩ := q
    simp only [hf, view] at hno hok hoom
    refine wp_lookupDir hst ht (fun hm hgives w' hs => hoom hm (fun a ha => hgives ?_) w' hs)
      (fun hr w' hs => ?_) (fun e hr hdir w' hs => ?_) (fun parent e hr hdir hfb w' hs => ?_) hH
    · cases hr : resolve fs.ents dir with
      | none =>
        rw [hr] at ha
        cases ha
      | some e => rfl
    · rw [hg]
      exact hno bad (by rw [hr]) w' hs
    · exact hno notDir (by simp only [hr, if_neg hdir]) w' hs
    · exact hok parent name (by simp only [hr, if_pos hdir, hfb]) w' hs

/-- What a search of the table of `d` finds. -/
def Searched (fs : Fs) (d : Nat) (name : CStr) (r : Option Nat) : Prop :=
  (r = none ∧ findName (fs.ents d) name = none) ∨
    ∃ i e, r = some i ∧ (fs.ents d)[i]? = some e ∧ findName (fs.ents d) name = some e

/-- Read the table of a directory into a new buffer and search it. -/
theorem wp_searchTable (hst : Store w.dt fs chain) {d uid p : Nat} {flags : UInt8}
    {kids : List Ent} (ho : fs d = some ⟨uid, flags, .dir p kids⟩) {site : AllocSite} {size : Nat}
    {name : CStr} {fail : α} {k : Buf → Option Nat → CM α} (hsize : 512 * (chain d).length ≤ size)
    (hoom : w.env.heap site 0 = none → ∀ w', Same w w' → Q fail w')
    (hok : ∀ (b : Buf) (r : Option Nat) (w' : World), Took site 1 w w' → b.size = size →
      Holds b.bytes (chain d).length d ⟨uid, flags, .dir p kids⟩ →
      Agree b.bytes (imageOf w.dt.data (chain d)) 0 (512 * (chain d).length) →
      Searched fs d name r → wpOr H (k b r) Q w') (hH : H ∨ Ample w.env) :
    wpOr H (do
      match ← malloc site size with
      | none => return fail
      | some b => do
        let b ← doReadfile d b
        let r ← findEntryByName b.bytes name
        k b r) Q w := by
  have hat := hst.obj d _ ho
  have hents : fs.ents d = table d p kids := ents_of_dir ho
  simp only [wp_bind, wp_malloc]
  cases hm : w.env.heap site 0 with
  | none => exact (wp_pure _ _ _).mpr (hoom hm _ (Same.pop w site))
  | some junk =>
    have htook : Took site 1 w { w with env := w.env.pop site } :=
      Took.one (by rw [hm]; exact Option.some_ne_none _)
    simp only [Option.map_some, wp_bind]
    refine wp_mono (wp_readObj (w := { w with env := w.env.pop site }) hst.sized hat hsize
      (hH.imp_right fun h => h.later (Later.pop _ _))) ?_
    rintro b w₁ ⟨rfl, hb, hholds, hagree⟩
    have hdir : DirImage b.bytes (chain d).length (table d p kids) := hholds.node
    refine wp_mono (wp_findEntryByName hdir) ?_
    rintro r w₂ ⟨rfl, hr⟩
    refine hok b r _ htook hb hholds hagree ?_
    cases hi : (table d p kids).findIdx? (fun e => e.name = name) with
    | none =>
      refine .inl ⟨hr.trans hi, ?_⟩
      rw [hents, findName_eq, hi]
      rfl
    | some i =>
      have hlt := (List.findIdx?_eq_some_iff_getElem.mp hi).1
      have hget : (table d p kids)[i]? = some ((table d p kids)[i]) :=
        List.getElem?_eq_getElem hlt
      refine .inr ⟨i, _, hr.trans hi, by rw [hents]; exact hget, ?_⟩
      rw [hents, findName_eq, hi]
      exact hget

end Steps

/-- Out of memory nothing has changed; else a refusal changes nothing and gives the code of
the plan, and a planned change is made. -/
def Outcome {α : Type} (w : World) (plan : Except Int α) (did : α → Int → World → Prop) (r : Int)
    (w' : World) : Prop :=
  (Same w w' ∧ r < 0 ∧ OutOfMemory w.env) ∨
    match plan with
    | .error c => Same w w' ∧ r = c
    | .ok a => did a r w'

theorem Outcome.mono {α : Type} {w w' : World} {plan : Except Int α}
    {did did' : α → Int → World → Prop} {r : Int} (h : Outcome w plan did r w')
    (hdid : ∀ a, did a r w' → did' a r w') : Outcome w plan did' r w' := by
  rcases h with h | h
  · exact .inl h
  · refine .inr ?_
    cases plan with
    | error c => exact h
    | ok a => exact hdid a h

/-! ## New entries -/

/-- The state after a new object `o` was entered as `e` in the directory `d`. -/
structure Entered (fs : Fs) (chain : Nat → List Nat) (d : Nat) (od : Obj) (p : Nat)
    (kids : List Ent) (e : Ent) (o : Obj) (w w' : World) (chain' : Nat → List Nat) : Prop where
  linkable : Linkable fs d od p kids e o
  store : Store w'.dt (link fs d od p kids e o) chain'
  kept : Kept fs chain chain' d w.dt w'.dt
  later : Later w.env w'.env
  ipIndex : w'.ipIndex = w.ipIndex
  maxBlockNum : w'.dt.sb.maxBlockNum = w.dt.sb.maxBlockNum
  ordered : Ordered fs chain → Ordered (link fs d od p kids e o) chain'

/-- A new object and the rewritten directory that names it make an entry. -/
theorem entered {d uid p : Nat} {flags : UInt8} {kids : List Ent} {e : Ent} {o : Obj}
    {w w₁ w' : World} {cs : List Nat} (ho : fs d = some ⟨uid, flags, .dir p kids⟩)
    (happ : Appeared fs chain e.fb o w w₁)
    (hrew : Rewritten (Function.update fs e.fb (some o)) (Function.update chain e.fb [e.fb]) d
      ⟨uid, flags, .dir p (kids ++ [e])⟩ w₁ w' cs)
    (hname : findName (fs.ents d) e.name = none) (htyped : Typed e o)
    (hempty : ∀ p' kids', o.node = .dir p' kids' → p' = d ∧ kids' = []) :
    ∃ chain', Entered fs chain d ⟨uid, flags, .dir p kids⟩ p kids e o w w' chain' := by
  refine ⟨_, ⟨ho, rfl, happ.fresh, ?_, htyped, hempty⟩, hrew.store, ?_,
    happ.later.trans hrew.later, hrew.ipIndex.trans happ.ipIndex,
    hrew.maxBlockNum.trans happ.maxBlockNum,
    fun h => (h.update (List.pairwise_singleton _ _) _ _).update hrew.sorted _ _⟩
  · rw [ents_of_dir ho] at hname
    exact findName_none hname
  · refine (happ.kept d).trans hrew.kept fun m o₁ hm _ => ?_
    have hne : m ≠ e.fb := by
      rintro rfl
      rw [happ.fresh] at hm
      cases hm
    exact ⟨o₁, by rw [Function.update_of_ne hne, hm]⟩

/-- The first sector of an object that has been read. -/
theorem sector_of_read {w : World} {d : Nat} {o : Obj} {cs : List Nat} {b : Bytes}
    (hat : ObjAt w.dt d o cs) (hagree : Agree b (imageOf w.dt.data cs) 0 (512 * cs.length)) :
    Agree b (w.dt.data d) 0 512 := by
  have hpos := hat.length_pos
  intro j _ hj
  rw [hat.header (by omega)]
  exact hagree j (Nat.zero_le _) (by omega)

/-- The two headers that describe one table agree. -/
theorem header_of_read {w : World} {d : Nat} {o : Obj} {cs : List Nat} {b : Bytes}
    (hat : ObjAt w.dt d o cs) (hagree : Agree b (imageOf w.dt.data cs) 0 (512 * cs.length))
    {off m : Nat} (h : off + m ≤ 64) : getLE (w.dt.data d) off m = getLE b off m :=
  (getLE_congr ((sector_of_read hat hagree).mono (Nat.zero_le _) (by omega))).symm

/-- The image of a directory after `spliceEntry`. -/
theorem spliced_holds {b pdata : Bytes} {n d uid p fb newsize : Nat} {flags type : UInt8}
    {kids : List Ent} {name : CStr} (h : Holds pdata n d ⟨uid, flags, .dir p kids⟩)
    (hfb : fb < 2 ^ 32) (hsize : newsize = metaFlen pdata + name.length + 1 + 16)
    (hlt : newsize < 2 ^ 41 - 512) :
    Holds (spliced b pdata (table d p kids).length (metaStrlen pdata) name type fb newsize)
      ((newsize + 511) / 512) d ⟨uid, flags, .dir p (kids ++ [⟨name, fb, type⟩])⟩ where
  uid := spliced_uid.trans h.uid
  flags := spliced_flags.trans h.flags
  blocks := spliced_blocks hlt
  node := spliced_dir h.node hfb hsize hlt

/-- `spliceEntry` makes a table with one more entry, whether `init` makes the object or not. -/
theorem wp_spliced_entry {w : World} {d uid p size : Nat} {flags type : UInt8} {kids : List Ent}
    {name : CStr} {pmeta pdata : Bytes} {b : Buf} {init : CM (Option Nat)}
    {R : Option Nat → World → Prop}
    (hh : Holds pdata (chain d).length d ⟨uid, flags, .dir p kids⟩)
    (hmeta : ∀ off m, off + m ≤ 64 → getLE pmeta off m = getLE pdata off m)
    (hb : b.size = size) (hsize : size = metaFlen pdata + name.length + 1 + 16)
    (hlt : size < 2 ^ 41 - 512) (hinit : wpOr H init R w)
    (hR : ∀ fb w', R (some fb) w' → fb < 2 ^ 32) :
    wpOr H (spliceEntry pdata pmeta b size name type init)
      (fun r w' => R r.2 w' ∧ ∃ fb, fb = enteredFb b.bytes (table d p kids).length r.2 ∧
        r.1.size = size ∧
        Holds r.1.bytes ((size + 511) / 512) d ⟨uid, flags, .dir p (kids ++ [⟨name, fb, type⟩])⟩ ∧
        metaFlen r.1.bytes = size ∧ metaCount r.1.bytes = metaCount pdata ∧
        entryFb r.1.bytes (metaSize + metaStrbase pmeta) = fb) w := by
  have hd : DirImage pdata (chain d).length (table d p kids) := hh.node
  have hflen := hd.flen
  have hbase : metaStrbase pmeta = 16 * (table d p kids).length :=
    (hmeta 40 8 (by omega)).trans hd.strbase
  have hlen : metaStrlen pmeta = metaStrlen pdata := hmeta 48 8 (by omega)
  refine wp_mono (wp_spliceEntry hbase hlen hb (by omega) hlt hd.strbase rfl hinit) ?_
  rintro ⟨buf, fb⟩ w' ⟨hbuf, hr⟩
  dsimp only at hbuf hr
  subst hbuf
  have hfb : enteredFb b.bytes (table d p kids).length fb < 2 ^ 32 := by
    cases fb with
    | none => exact getLE_lt _ _ 4
    | some fb => exact hR fb w' hr
  refine ⟨hr, _, rfl, rfl, spliced_holds hh hfb hsize hlt, spliced_flen (by omega),
    spliced_count, ?_⟩
  rw [hbase]
  exact spliced_entryFb hfb

/-- The object one level up of a new entry: `spliceEntry` makes the object and the new table. -/
theorem wp_spliced {w : World} {d uid p size : Nat} {flags type : UInt8} {kids : List Ent}
    {name : CStr} {o : Obj} {pmeta pdata : Bytes} {b : Buf} {init : CM (Option Nat)}
    {R : Nat → World → Prop}
    (hh : Holds pdata (chain d).length d ⟨uid, flags, .dir p kids⟩)
    (hmeta : ∀ off m, off + m ≤ 64 → getLE pmeta off m = getLE pdata off m)
    (hb : b.size = size) (hsize : size = metaFlen pdata + name.length + 1 + 16)
    (hlt : size < 2 ^ 41 - 512)
    (hinit : wpOr H init
      (fun r w' => ∃ fb, r = some fb ∧ Appeared fs chain fb o w w' ∧ R fb w') w) :
    wpOr H (spliceEntry pdata pmeta b size name type init)
      (fun r w' => ∃ fb, r.2 = some fb ∧ (Appeared fs chain fb o w w' ∧ R fb w') ∧
        r.1.size = size ∧
        Holds r.1.bytes ((size + 511) / 512) d ⟨uid, flags, .dir p (kids ++ [⟨name, fb, type⟩])⟩ ∧
        metaFlen r.1.bytes = size ∧ metaCount r.1.bytes = metaCount pdata ∧
        entryFb r.1.bytes (metaSize + metaStrbase pmeta) = fb) w := by
  refine wp_mono (wp_spliced_entry hh hmeta hb hsize hlt hinit ?_) ?_
  · rintro fb w' ⟨fb', hfb, happ, -⟩
    cases hfb
    have := happ.lt
    omega
  · rintro ⟨buf, fb?⟩ w' ⟨⟨fb, hfb, happ⟩, fb', he, hrest⟩
    dsimp only at hfb
    subst hfb
    obtain rfl : fb' = fb := he
    exact ⟨fb', rfl, happ, hrest⟩

theorem newsize_lt {w : World} {d uid p : Nat} {flags : UInt8} {kids : List Ent} {pdata : Bytes}
    (hst : Store w.dt fs chain) (ho : fs d = some ⟨uid, flags, .dir p kids⟩)
    (hh : Holds pdata (chain d).length d ⟨uid, flags, .dir p kids⟩) {len : Nat}
    (hlen : len < 2 ^ 33) : 64 ≤ metaFlen pdata ∧ metaFlen pdata + len + 1 + 16 < 2 ^ 35 := by
  have hd : DirImage pdata (chain d).length (table d p kids) := hh.node
  have hflen := hd.flen
  have hle := hd.le
  have hchain := (hst.obj d _ ho).length_le hst.sized
  have hnum := hst.sized.fatNum_lt
  omega

section Create

variable {w : World}

/-- What a decision to make a new entry of the object `o fb` leads to. -/
def Makes (fs : Fs) (chain : Nat → List Nat) (d : Nat) (name : CStr) (type : UInt8) (o : Obj)
    (w w' : World) (fb : Nat) : Prop :=
  ∃ uid flags p kids chain', fs d = some ⟨uid, flags, .dir p kids⟩ ∧
    Entered fs chain d ⟨uid, flags, .dir p kids⟩ p kids ⟨name, fb, type⟩ o w w' chain'

theorem Makes.after {w₁ w' : World} {d fb : Nat} {name : CStr} {type : UInt8} {o : Obj}
    (h : Makes fs chain d name type o w₁ w' fb) (hs : Same w w₁) :
    Makes fs chain d name type o w w' fb := by
  obtain ⟨uid, flags, p, kids, chain', ho, he⟩ := h
  refine ⟨uid, flags, p, kids, chain', ho, he.linkable, he.store, ?_, hs.later.trans he.later,
    he.ipIndex.trans hs.ipIndex, ?_, he.ordered⟩
  · rw [← hs.dt]
    exact he.kept
  · rw [← hs.dt]
    exact he.maxBlockNum

/-- Room for the entry `name` of the directory `d`. -/
def RoomFor (dt : Dtree) (chain : Nat → List Nat) (d : Nat) (name : CStr) : Prop :=
  RoomToEnter dt (chain d) d ((metaFlen (dt.data d) + name.length + 1 + 16 + 511) / 512)

/-- There is memory for the tables on the way to the directory of the path, and for its own. -/
structure Searches (e : Env) (path : CStr) : Prop where
  lookup : Env.Gives e .lookup (tablesAbove path)
  table : e.heap .table 0 ≠ none

/-- The operation has read the table `pdata` of the directory `d`, has found no entry `name`
there, and has `size` bytes for the table with one. -/
structure Absent (fs : Fs) (chain : Nat → List Nat) (d uid : Nat) (flags : UInt8) (p : Nat)
    (kids : List Ent) (name : CStr) (pdata : Bytes) (size : Nat) (w w' : World) : Prop where
  same : Same w w'
  others : ∀ s, s ≠ .lookup → s ≠ .table → s ≠ .image → w'.env.heap s = w.env.heap s
  dir : fs d = some ⟨uid, flags, .dir p kids⟩
  free : findName (fs.ents d) name = none
  holds : Holds pdata (chain d).length d ⟨uid, flags, .dir p kids⟩
  header : ∀ off m, off + m ≤ 64 → getLE (w.dt.data d) off m = getLE pdata off m
  size_eq : size = metaFlen pdata + name.length + 1 + 16
  ge : 64 ≤ size
  lt : size < 2 ^ 35

/-- The outcomes of the allocations at the other places after a search and a new table. -/
theorem others_searched {w w₁ w₂ : World} {n : Nat} (h₁ : Took .lookup n w w₁)
    (h₂ : Took .table 1 w₁ w₂) {s : AllocSite} (hl : s ≠ .lookup) (ht : s ≠ .table) :
    w₂.env.heap s = w.env.heap s := (h₂.other ht).trans (h₁.other hl)

/-- The search for the name, and the memory for the table with the new entry. -/
theorem absent_of_searched {path name : CStr} {w₁ w₂ : World} {d uid p size : Nat} {flags : UInt8}
    {kids : List Ent} {pdata : Buf} (htook₁ : Took .lookup (tablesAbove path) w w₁)
    (htook₂ : Took .table 1 w₁ w₂) (ho : fs d = some ⟨uid, flags, .dir p kids⟩)
    (hat : ObjAt w₁.dt d ⟨uid, flags, .dir p kids⟩ (chain d))
    (hfree : findName (fs.ents d) name = none)
    (hholds : Holds pdata.bytes (chain d).length d ⟨uid, flags, .dir p kids⟩)
    (hagree : Agree pdata.bytes (imageOf w₁.dt.data (chain d)) 0 (512 * (chain d).length))
    (hlt : 64 ≤ metaFlen pdata.bytes ∧ metaFlen pdata.bytes + name.length + 1 + 16 < 2 ^ 35)
    (hsize : size = metaFlen pdata.bytes + name.length + 1 + 16)
    (hm : w₂.env.heap .image 0 ≠ none) :
    (Searches w.env path ∧ w.env.heap .image 0 ≠ none) ∧
      Absent fs chain d uid flags p kids name pdata.bytes size w
        { w₂ with env := w₂.env.pop .image } := by
  have hs := htook₁.same.trans htook₂.same
  refine ⟨⟨⟨htook₁.gives, ?_⟩, ?_⟩, hs.trans (Same.pop w₂ _), fun s hl htab himg => ?_, ho, hfree,
    hholds, fun off m h => ?_, hsize, by omega, by omega⟩
  · rw [← htook₁.other (by decide)]
    exact Env.gives_one.mp htook₂.gives
  · rw [← others_searched htook₁ htook₂ (by decide) (by decide)]
    exact hm
  · rw [← others_searched htook₁ htook₂ hl htab]
    exact Env.skip_other himg 1
  · rw [← htook₁.same.dt]
    exact header_of_read hat hagree h

/-- `c_mkdir` up to the point where it makes the new table. -/
theorem wp_cMkdir_until {Q : Int → World → Prop} (hst : Store w.dt fs chain) (ht : Tree fs)
    {path : CStr} (uid : UInt32)
    (hname : ∀ d name, mkdirPlan (view fs) path uid = .ok (d, name) → name.length < 2 ^ 33)
    (hno : ∀ c, mkdirPlan (view fs) path uid = .error c → ∀ w', Same w w' → Q c w')
    (hoom : OutOfMemory w.env → (∀ a, mkdirPlan (view fs) path uid = .ok a →
      ¬ (Searches w.env path ∧ w.env.heap .image 0 ≠ none)) → ∀ w', Same w w' → Q (-9) w')
    (hmake : ∀ (d : Nat) (name : CStr) (ouid : Nat) (flags : UInt8) (p : Nat) (kids : List Ent)
      (pdata : Bytes) (size : Nat) (buf : Buf) (w' : World),
      mkdirPlan (view fs) path uid = .ok (d, name) →
      Searches w.env path ∧ w.env.heap .image 0 ≠ none →
      Absent fs chain d ouid flags p kids name pdata size w w' →
      buf.size = size → (∀ i < size, buf.bytes i = 0) →
      wpOr H (do
        let (buf, _) ← spliceEntry pdata (w.dt.data d) buf size name S_DIR (initdir uid (some d))
        let buf ← buf.store 4 4 (u32 (metaCount buf.bytes + 1))
        doWritefile d buf.bytes size
        return (0 : Int)) Q w')
    (hH : H ∨ Ample w.env) : wpOr H (cMkdir path uid) Q w := by
  unfold mkdirPlan at hname hno hoom hmake
  refine wp_atTarget (g := id) hst ht rfl (fun c hc w' hs => ?_) (fun hm hgives w' hs => ?_) ?_ hH
  · exact hno c (by rw [hc]) w' hs
  · refine hoom hm (fun a ha hmem => ?_) w' hs
    cases htarget : target (view fs) path 1 2 with
    | error c =>
      rw [htarget] at ha
      cases ha
    | ok q => exact hgives q htarget hmem.1.lookup
  intro parent name htarget w₁ htook₁
  have hs₁ := htook₁.same
  obtain ⟨ouid, flags, p, kids, ho⟩ := target_dir ht htarget
  have hst₁ : Store w₁.dt fs chain := by rw [hs₁.dt]; exact hst
  have hat := hst₁.obj _ _ ho
  simp only [htarget, view_may ho] at hname hno hoom hmake
  simp only [wp_bind, wp_readSector, hst₁.sized.sectorOf hat.head_lt, hst₁.sized.dataSecs,
    header_perm hat, wp_ite, wp_pure]
  refine ⟨hat.head_lt, ?_⟩
  by_cases hperm : perm uid ⟨ouid, flags, .dir p kids⟩ W = 0
  · simp only [if_pos hperm] at hno ⊢
    exact hno 4 rfl w₁ hs₁
  simp only [if_neg hperm] at hname hno hoom hmake ⊢
  rw [← wp_bind]
  refine wp_searchTable hst₁ ho (Nat.le_of_eq (hat.buffer_size hst₁.sized).symm)
    (fun hm w' hs => ?_) ?_ (hH.imp_right fun h => h.later hs₁.later)
  · refine hoom ((outOfMemory_of_none hm).later hs₁.later) (fun a _ hmem => hmem.1.table ?_) w'
      (hs₁.trans hs)
    rw [← htook₁.other (by decide)]
    exact hm
  intro pdata r w₂ htook₂ hsize hholds hagree hfound
  have hs := hs₁.trans htook₂.same
  rcases hfound with ⟨rfl, hnone⟩ | ⟨i, e, rfl, _, hsome⟩
  swap
  · simp only [view, hsome] at hno ⊢
    exact (wp_pure _ _ _).mpr (hno 3 rfl w₂ hs)
  simp only [view, hnone] at hname hno hoom hmake ⊢
  obtain ⟨size, hnew⟩ : ∃ size, metaFlen pdata.bytes + name.length + 1 + 16 = size := ⟨_, rfl⟩
  have hlt := newsize_lt hst₁ ho hholds (hname _ _ rfl)
  have hu : u64 (metaFlen (w₁.dt.data parent.fb) + name.length + 1 + entrySize) = size := by
    rw [show metaFlen (w₁.dt.data parent.fb) = metaFlen pdata.bytes from
      header_of_read hat hagree (by omega)]
    simp only [u64, entrySize]
    omega
  rw [hu]
  simp only [wp_bind, wp_malloc]
  cases hm : w₂.env.heap .image 0 with
  | none =>
    refine (wp_pure _ _ _).mpr (hoom ((outOfMemory_of_none hm).later hs.later)
      (fun a _ hmem => ?_) _
      (hs.trans (Same.pop w₂ _)))
    rw [others_searched htook₁ htook₂ (by decide) (by decide)] at hm
    exact hmem.2 hm
  | some junk =>
    simp only [Option.map_some]
    obtain ⟨hmem, habsent⟩ := absent_of_searched htook₁ htook₂ ho hat hnone hholds hagree hlt
      hnew.symm (hm ▸ Option.some_ne_none junk)
    rw [hs₁.dt]
    exact hmake parent.fb name ouid flags p kids pdata.bytes size _ _ rfl hmem habsent rfl
      fun i hi => if_pos hi

/-- `c_mkdir` does what its plan says, and counts the new directory. -/
theorem wp_cMkdir_counts (hst : Store w.dt fs chain) (ht : Tree fs) {path : CStr} (uid : UInt32)
    (hname : ∀ d name, mkdirPlan (view fs) path uid = .ok (d, name) → name.length < 2 ^ 33)
    (hmem : ∀ a, mkdirPlan (view fs) path uid = .ok a →
      Searches w.env path ∧ w.env.heap .image 0 ≠ none → w.env.heap .initdir 0 ≠ none)
    (hH : H ∨ (Ample w.env ∧ ∀ d name, mkdirPlan (view fs) path uid = .ok (d, name) →
      RoomFor w.dt chain d name)) :
    wpOr H (cMkdir path uid)
      (Outcome w (mkdirPlan (view fs) path uid) fun a r w' =>
        r = 0 ∧ ∃ fb, Makes fs chain a.1 a.2 S_DIR (newDir uid a.1) w w' fb ∧
          metaCount (w'.dt.data a.1) = u32 (metaCount (w.dt.data a.1) + 1) ∧
          metaCount (w'.dt.data fb) = 3) w := by
  refine wp_cMkdir_until hst ht uid hname (fun c hc w' hs => ?_) (fun hm _ w' hs => ?_)
    (fun d name ouid flags p kids pdata size buf w₁ hplan hgot habs hsize _ => ?_)
    (hH.imp_right And.left)
  · rw [hc]
    exact .inr ⟨hs, rfl⟩
  · exact .inl ⟨hs, by decide, hm⟩
  rw [hplan]
  have hs := habs.same
  have ho := habs.dir
  have hst₁ : Store w₁.dt fs chain := by rw [hs.dt]; exact hst
  have hat := hst.obj _ _ ho
  have hge := habs.ge
  have hlt := habs.lt
  have hnew := habs.size_eq
  have hparent : d < 2 ^ 32 := by
    have h1 := hat.head_lt
    have h2 := hst.sized.fatNum_lt
    omega
  have hinit : w₁.env.heap .initdir 0 ≠ none := by
    rw [habs.others _ (by decide) (by decide) (by decide)]
    exact hmem _ hplan hgot
  have hroom : H ∨ (Ample w₁.env ∧ RoomToEnter w₁.dt (chain d) d ((size + 511) / 512)) := by
    refine hH.imp_right fun h => ⟨h.1.later hs.later, ?_⟩
    have hroom := h.2 _ _ hplan
    unfold RoomFor at hroom
    rw [show metaFlen (w.dt.data d)
      = metaFlen pdata from habs.header 8 8 (by omega), ← hnew] at hroom
    rw [hs.dt]
    exact hroom
  simp only [wp_bind]
  refine wp_mono (wp_spliced habs.holds habs.header hsize hnew (by omega)
    (wp_newDir hst₁ hinit hparent (hroom.imp_right fun h => ⟨h.1, h.2.free⟩))) ?_
  rintro ⟨buf', fb?⟩ w₂ ⟨fb, rfl, ⟨happ, hthree⟩, hbsize, hbh, hbflen, hbcount, -⟩
  simp only [wp_store, wp_pure]
  have hne : d ≠ fb := by
    intro he
    have hf := happ.fresh
    rw [← he, ho] at hf
    cases hf
  have hcount := hbh.setCount (v := u32 (metaCount buf'.bytes + 1))
  have hflen : metaFlen (putLE buf'.bytes 4 4 (u32 (metaCount buf'.bytes + 1))) = size :=
    (getLE_putLE_ne (by omega)).trans hbflen
  simp only at hbsize
  refine ⟨by omega, wp_mono (wp_writeObj_headed happ.store
    ((Function.update_of_ne hne _ _).trans ho) hcount (by omega) (Nat.le_of_eq hflen)
    (by omega) (hroom.imp_right fun h => ⟨h.1.later happ.later, ?_⟩)) ?_⟩
  · rw [Function.update_of_ne hne]
    exact h.2.table happ
  rintro _ w' ⟨⟨cs, hrew⟩, hheaded⟩
  obtain ⟨chain', hent⟩ := entered (e := ⟨name, fb, S_DIR⟩) (o := newDir uid d) ho happ hrew
    habs.free (.inl ⟨rfl, trivial⟩) (by
    intro p' kids' hnode
    cases hnode
    exact ⟨rfl, rfl⟩)
  have hmakes : Makes fs chain d name S_DIR (newDir uid d) w₁ w' fb :=
    ⟨_, _, _, _, chain', ho, hent⟩
  have hparentCount : metaCount (w'.dt.data d) = u32 (metaCount (w.dt.data d) + 1) := by
    have hold : metaCount (w.dt.data d) = metaCount pdata := habs.header 4 4 (by decide)
    have hlt : u32 (metaCount buf'.bytes + 1) < 2 ^ 32 := Nat.mod_lt _ (by decide)
    have hput : metaCount (putLE buf'.bytes 4 4 (u32 (metaCount buf'.bytes + 1)))
        = u32 (metaCount buf'.bytes + 1) := getLE_putLE hlt
    rw [hold, ← hbcount]
    exact (hheaded 4 4 (by decide)).trans hput
  have hnewCount : metaCount (w'.dt.data fb) = 3 := by
    have hkept := (hrew.kept fb _ (Function.update_self _ _ _) hne.symm).2 fb (by
      rw [Function.update_self]
      exact List.mem_singleton_self fb)
    rw [hkept.2]
    exact hthree
  exact .inr ⟨rfl, fb, hmakes.after hs, hparentCount, hnewCount⟩

/-- `c_mkdir` does what its plan says. -/
theorem wp_cMkdir (hst : Store w.dt fs chain) (ht : Tree fs) {path : CStr} (uid : UInt32)
    (hname : ∀ d name, mkdirPlan (view fs) path uid = .ok (d, name) → name.length < 2 ^ 33)
    (hmem : ∀ a, mkdirPlan (view fs) path uid = .ok a →
      Searches w.env path ∧ w.env.heap .image 0 ≠ none → w.env.heap .initdir 0 ≠ none)
    (hH : H ∨ (Ample w.env ∧ ∀ d name, mkdirPlan (view fs) path uid = .ok (d, name) →
      RoomFor w.dt chain d name)) :
    wpOr H (cMkdir path uid)
      (Outcome w (mkdirPlan (view fs) path uid) fun a r w' =>
        r = 0 ∧ ∃ fb, Makes fs chain a.1 a.2 S_DIR (newDir uid a.1) w w' fb) w :=
  wp_mono (wp_cMkdir_counts hst ht uid hname hmem hH) fun _ _ h => h.mono fun _ hdid =>
    ⟨hdid.1, hdid.2.imp fun _ hm => hm.1⟩

/-- The checks of `c_open` on the flags are met by every flag value. -/
theorem openCheck (oflags wcheck rcheck : UInt8) :
    ((wcheck ≠ 0 ∧ oflags ||| SBP_O_WRONLY ≠ 0) ∨ (rcheck ≠ 0 ∧ oflags ||| SBP_O_RDONLY ≠ 0) ∨
      (wcheck ≠ 0 ∧ rcheck ≠ 0 ∧ oflags ||| SBP_O_RDWR ≠ 0)) ↔ ¬ (wcheck = 0 ∧ rcheck = 0) := by
  have h1 : oflags ||| SBP_O_WRONLY ≠ 0 := fun h => by
    exact absurd (UInt8.or_eq_zero_iff.mp h).2 (by decide)
  have h2 : oflags ||| SBP_O_RDONLY ≠ 0 := fun h => by
    exact absurd (UInt8.or_eq_zero_iff.mp h).2 (by decide)
  have h3 : oflags ||| SBP_O_RDWR ≠ 0 := fun h => by
    exact absurd (UInt8.or_eq_zero_iff.mp h).2 (by decide)
  constructor
  · rintro (⟨h, _⟩ | ⟨h, _⟩ | ⟨h, _⟩) ⟨hw, hr⟩
    · exact h hw
    · exact h hr
    · exact h hw
  · intro h
    by_cases hw : wcheck = 0
    · exact .inr (.inl ⟨fun hr => h ⟨hw, hr⟩, h2⟩)
    · exact .inl ⟨hw, h1⟩

theorem createCheck (oflags : UInt8) : oflags ||| SBP_O_CREAT ≠ 0 := fun h =>
  absurd (UInt8.or_eq_zero_iff.mp h).2 (by decide)

theorem s32_of_lt {n : Nat} (h : n < 2 ^ 31) : s32 n = n := by
  unfold s32
  rw [if_pos (by omega)]
  omega

/-- What `c_open` does when it does not refuse. -/
def Opened (fs : Fs) (chain : Nat → List Nat) (uid : UInt32) (mode : UInt8) (w : World)
    (a : Nat × CStr × Option Ent) (r : Int) (w' : World) : Prop :=
  match a with
  | (_, _, some e) => Same w w' ∧ r = e.fb
  | (d, name, none) => ∃ fb : Nat, r = fb ∧ Makes fs chain d name S_FIL (newFile uid mode) w w' fb

/-- `c_open` up to the point where it makes the new table, whatever the flags. -/
theorem wp_cOpen_until {Q : Int → World → Prop} (hst : Store w.dt fs chain) (ht : Tree fs)
    {path : CStr} (oflags mode : UInt8) (uid : UInt32)
    (hname : ∀ d name, openPlan (view fs) path uid = .ok (d, name, none) → name.length < 2 ^ 33)
    (hno : ∀ c, openPlan (view fs) path uid = .error c → ∀ w', Same w w' → Q c w')
    (hfound : ∀ d name e, openPlan (view fs) path uid = .ok (d, name, some e) →
      ∀ w', Same w w' → Q e.fb w')
    (hoom : OutOfMemory w.env → (∀ d name, openPlan (view fs) path uid = .ok (d, name, none) →
      ¬ (Searches w.env path ∧ w.env.heap .image 0 ≠ none)) → ∀ c < 0, ∀ w', Same w w' → Q c w')
    (hmake : ∀ (d : Nat) (name : CStr) (ouid : Nat) (flags : UInt8) (p : Nat) (kids : List Ent)
      (pdata : Bytes) (size : Nat) (buf : Buf) (w' : World),
      openPlan (view fs) path uid = .ok (d, name, none) →
      Searches w.env path ∧ w.env.heap .image 0 ≠ none →
      Absent fs chain d ouid flags p kids name pdata size w w' → buf.size = size →
      wpOr H (do
        let (buf, _) ← spliceEntry pdata (w.dt.data d) buf size name S_FIL (initfile uid mode)
        doWritefile d buf.bytes size
        return s32 (entryFb buf.bytes (metaSize + metaStrbase (w.dt.data d)))) Q w')
    (hH : H ∨ Ample w.env) : wpOr H (cOpen path oflags mode uid) Q w := by
  unfold openPlan at hname hno hfound hoom hmake
  refine wp_atTarget (g := fun _ => -1) hst ht rfl (fun c hc w' hs => ?_)
    (fun hm hgives w' hs => ?_) ?_ hH
  · exact hno c (by rw [hc]) w' hs
  · refine hoom hm (fun d name ha hmem => ?_) _ (by decide) w' hs
    cases htarget : target (view fs) path (-1) (-1) with
    | error c =>
      rw [htarget] at ha
      cases ha
    | ok q => exact hgives q htarget hmem.1.lookup
  intro parent name htarget w₁ htook₁
  have hs₁ := htook₁.same
  obtain ⟨ouid, flags, p, kids, ho⟩ := target_dir ht htarget
  have hst₁ : Store w₁.dt fs chain := by rw [hs₁.dt]; exact hst
  have hat := hst₁.obj _ _ ho
  simp only [htarget, view_may ho] at hname hno hfound hoom hmake
  simp only [wp_bind, wp_readSector, hst₁.sized.sectorOf hat.head_lt, hst₁.sized.dataSecs,
    header_perm hat, wp_ite, wp_pure, openCheck, not_not]
  refine ⟨hat.head_lt, ?_⟩
  by_cases hperm : perm uid ⟨ouid, flags, .dir p kids⟩ W = 0 ∧
      perm uid ⟨ouid, flags, .dir p kids⟩ R = 0
  · simp only [if_pos hperm] at hno ⊢
    exact hno (-4) rfl w₁ hs₁
  simp only [if_neg hperm] at hname hno hfound hoom hmake ⊢
  rw [← wp_bind]
  refine wp_searchTable hst₁ ho (Nat.le_of_eq (hat.buffer_size hst₁.sized).symm)
    (fun hm w' hs => ?_) ?_ (hH.imp_right fun h => h.later hs₁.later)
  · refine hoom ((outOfMemory_of_none hm).later hs₁.later) (fun d name _ hmem => hmem.1.table ?_) _
      (by decide) w' (hs₁.trans hs)
    rw [← htook₁.other (by decide)]
    exact hm
  intro pdata r w₂ htook₂ hsize hholds hagree hfind
  have hs := hs₁.trans htook₂.same
  rcases hfind with ⟨rfl, hnone⟩ | ⟨i, e, rfl, hget, hsome⟩
  · simp only [view, hnone] at hname hno hoom hmake
    simp only [createCheck, not_false_eq_true, ne_eq, if_true]
    obtain ⟨size, hnew⟩ : ∃ size, metaFlen pdata.bytes + name.length + 1 + 16 = size := ⟨_, rfl⟩
    have hlt := newsize_lt hst₁ ho hholds (hname _ _ rfl)
    have hu : u64 (metaFlen (w₁.dt.data parent.fb) + entrySize + name.length + 1) = size := by
      rw [show metaFlen (w₁.dt.data parent.fb) = metaFlen pdata.bytes from
        header_of_read hat hagree (by omega)]
      simp only [u64, entrySize]
      omega
    rw [hu]
    simp only [wp_bind, wp_malloc]
    cases hm : w₂.env.heap .image 0 with
    | none =>
      refine (wp_pure _ _ _).mpr (hoom ((outOfMemory_of_none hm).later hs.later)
        (fun d name _ hmem => ?_) _ (by decide) _ (hs.trans (Same.pop w₂ _)))
      rw [others_searched htook₁ htook₂ (by decide) (by decide)] at hm
      exact hmem.2 hm
    | some junk =>
      simp only [Option.map_some]
      obtain ⟨hmem, habsent⟩ := absent_of_searched htook₁ htook₂ ho hat hnone hholds hagree hlt
        hnew.symm (hm ▸ Option.some_ne_none junk)
      rw [hs₁.dt]
      exact hmake parent.fb name ouid flags p kids pdata.bytes size _ _ rfl hmem habsent rfl
  · have hdir : DirImage pdata.bytes (chain parent.fb).length (table parent.fb p kids) :=
      hholds.node
    rw [ents_of_dir ho] at hget
    have hent := hdir.entry i e hget
    simp only [view, hsome] at hno hfound
    simp only [hent.type, hent.fb]
    by_cases hdirtype : e.type = S_DIR
    · simp only [if_pos hdirtype] at hno ⊢
      exact (wp_pure _ _ _).mpr (hno (-2) rfl w₂ hs)
    · simp only [if_neg hdirtype] at hfound ⊢
      obtain ⟨o, hoe, _⟩ := ht.typed_ents (findName_mem hsome)
      have hlte := (hst.obj _ _ hoe).head_lt
      have hnum := hst.sized.fatNum_lt
      rw [s32_of_lt (by omega)]
      exact (wp_pure _ _ _).mpr (hfound parent.fb name e rfl w₂ hs)

/-- `c_open` does what its plan says, whatever the flags, and does not count a new file. -/
theorem wp_cOpen_counts (hst : Store w.dt fs chain) (ht : Tree fs) {path : CStr}
    (oflags mode : UInt8)
    (uid : UInt32)
    (hname : ∀ d name, openPlan (view fs) path uid = .ok (d, name, none) → name.length < 2 ^ 33)
    (hmem : ∀ d name, openPlan (view fs) path uid = .ok (d, name, none) →
      Searches w.env path ∧ w.env.heap .image 0 ≠ none → w.env.heap .initfile 0 ≠ none)
    (hH : H ∨ (Ample w.env ∧ ∀ d name, openPlan (view fs) path uid = .ok (d, name, none) →
      RoomFor w.dt chain d name)) :
    wpOr H (cOpen path oflags mode uid)
      (Outcome w (openPlan (view fs) path uid) fun a r w' => Opened fs chain uid mode w a r w' ∧
        (a.2.2 = none → metaCount (w'.dt.data a.1) = metaCount (w.dt.data a.1))) w := by
  refine wp_cOpen_until hst ht oflags mode uid hname (fun c hc w' hs => ?_)
    (fun d name e hplan w' hs => ?_) (fun hm _ c hc w' hs => ?_)
    (fun d name ouid flags p kids pdata size buf w₁ hplan hgot habs hsize => ?_)
    (hH.imp_right And.left)
  · rw [hc]
    exact .inr ⟨hs, rfl⟩
  · rw [hplan]
    exact .inr ⟨⟨hs, rfl⟩, nofun⟩
  · exact .inl ⟨hs, hc, hm⟩
  rw [hplan]
  have hs := habs.same
  have ho := habs.dir
  have hst₁ : Store w₁.dt fs chain := by rw [hs.dt]; exact hst
  have hge := habs.ge
  have hlt := habs.lt
  have hnew := habs.size_eq
  have hinit : w₁.env.heap .initfile 0 ≠ none := by
    rw [habs.others _ (by decide) (by decide) (by decide)]
    exact hmem _ _ hplan hgot
  have hroom : H ∨ (Ample w₁.env ∧ RoomToEnter w₁.dt (chain d) d ((size + 511) / 512)) := by
    refine hH.imp_right fun h => ⟨h.1.later hs.later, ?_⟩
    have hroom := h.2 _ _ hplan
    unfold RoomFor at hroom
    rw [show metaFlen (w.dt.data d)
      = metaFlen pdata from habs.header 8 8 (by omega), ← hnew] at hroom
    rw [hs.dt]
    exact hroom
  have hfile : wpOr H (initfile uid mode) (fun r w' => ∃ fb, r = some fb ∧
      Appeared fs chain fb (newFile uid mode) w₁ w') w₁ :=
    wp_newFile hst₁ hinit (hroom.imp_right fun h => ⟨h.1, h.2.free⟩)
  simp only [wp_bind]
  refine wp_mono (wp_spliced (R := fun _ _ => True) habs.holds habs.header hsize hnew (by omega)
    (wp_mono hfile fun r w' hr => hr.imp fun fb hfb => ⟨hfb.1, hfb.2, trivial⟩)) ?_
  rintro ⟨buf', fb?⟩ w₂ ⟨fb, rfl, ⟨happ, -⟩, -, hbh, hbflen, hbcount, hbfb⟩
  simp only [wp_pure]
  have hne : d ≠ fb := by
    intro he
    have hf := happ.fresh
    rw [← he, ho] at hf
    cases hf
  refine wp_mono (wp_writeObj_headed happ.store ((Function.update_of_ne hne _ _).trans ho) hbh
    (by omega) (Nat.le_of_eq hbflen) (by omega)
    (hroom.imp_right fun h => ⟨h.1.later happ.later, ?_⟩)) ?_
  · rw [Function.update_of_ne hne]
    exact h.2.table happ
  rintro _ w' ⟨⟨cs, hrew⟩, hheaded⟩
  obtain ⟨chain', hent⟩ := entered (e := ⟨name, fb, S_FIL⟩) (o := newFile uid mode) ho happ hrew
    habs.free (.inr ⟨rfl, id⟩) (by
      intro p' kids' hnode
      cases hnode)
  have hmakes : Makes fs chain d name S_FIL (newFile uid mode) w₁ w' fb :=
    ⟨_, _, _, _, chain', ho, hent⟩
  have hr : s32 (entryFb buf'.bytes (metaSize + metaStrbase (w.dt.data d))) = fb := by
    rw [hbfb]
    have := happ.lt
    exact s32_of_lt (by omega)
  have hcount : metaCount (w'.dt.data d) = metaCount (w.dt.data d) := by
    have hold : metaCount (w.dt.data d) = metaCount pdata := habs.header 4 4 (by decide)
    rw [hold, ← hbcount]
    exact hheaded 4 4 (by decide)
  exact .inr ⟨⟨fb, hr, hmakes.after hs⟩, fun _ => hcount⟩

/-- `c_open` does what its plan says, whatever the flags. -/
theorem wp_cOpen (hst : Store w.dt fs chain) (ht : Tree fs) {path : CStr} (oflags mode : UInt8)
    (uid : UInt32)
    (hname : ∀ d name, openPlan (view fs) path uid = .ok (d, name, none) → name.length < 2 ^ 33)
    (hmem : ∀ d name, openPlan (view fs) path uid = .ok (d, name, none) →
      Searches w.env path ∧ w.env.heap .image 0 ≠ none → w.env.heap .initfile 0 ≠ none)
    (hH : H ∨ (Ample w.env ∧ ∀ d name, openPlan (view fs) path uid = .ok (d, name, none) →
      RoomFor w.dt chain d name)) :
    wpOr H (cOpen path oflags mode uid)
      (Outcome w (openPlan (view fs) path uid) (Opened fs chain uid mode w)) w :=
  wp_mono (wp_cOpen_counts hst ht oflags mode uid hname hmem hH) fun _ _ h =>
    h.mono fun _ hdid => hdid.1

end Create

/-! ## Removed entries -/

/-- The state after entry `i` behind `.` and `..` of `d` went away with its object. -/
structure Dropped (fs : Fs) (chain : Nat → List Nat) (d : Nat) (od : Obj) (p : Nat)
    (kids : List Ent) (i : Nat) (e : Ent) (w w' : World) (chain' : Nat → List Nat) : Prop where
  unlinkable : Unlinkable fs d od p kids i e
  store : Store w'.dt (unlink fs d od p kids i e.fb) chain'
  kept : Kept (Function.update fs e.fb none) chain chain' d w.dt w'.dt
  later : Later w.env w'.env
  ipIndex : w'.ipIndex = w.ipIndex
  maxBlockNum : w'.dt.sb.maxBlockNum = w.dt.sb.maxBlockNum
  ordered : Ordered fs chain → Ordered (unlink fs d od p kids i e.fb) chain'

/-- What a decision to remove the entry `e` of `d` leads to. -/
def Drops (fs : Fs) (chain : Nat → List Nat) (d : Nat) (e : Ent) (w w' : World) : Prop :=
  ∃ uid flags p kids i chain', fs d = some ⟨uid, flags, .dir p kids⟩ ∧
    Dropped fs chain d ⟨uid, flags, .dir p kids⟩ p kids i e w w' chain'

theorem Drops.after {w w₁ w' : World} {d : Nat} {e : Ent} (h : Drops fs chain d e w₁ w')
    (hs : Same w w₁) : Drops fs chain d e w w' := by
  obtain ⟨uid, flags, p, kids, i, chain', ho, hd⟩ := h
  refine ⟨uid, flags, p, kids, i, chain', ho, hd.unlinkable, hd.store, ?_,
    hs.later.trans hd.later, hd.ipIndex.trans hs.ipIndex, ?_, hd.ordered⟩
  · rw [← hs.dt]
    exact hd.kept
  · rw [← hs.dt]
    exact hd.maxBlockNum

section Remove

variable {w : World}

/-- Freeing a live object, as the first step of its removal. -/
theorem wp_resetObj {fb : Nat} {o : Obj} (hst : Store w.dt fs chain) (ho : fs fb = some o)
    (hH : H ∨ Ample w.env) :
    wpOr H (Sbpfs.Cfs.Fat.resetFat fb)
      (fun _ w' => w' = { w with dt := freed w.dt (chain fb) }) w := by
  have hat := hst.obj fb o ho
  obtain ⟨rest, hrest⟩ := hat.cons
  have hlt : ∀ c ∈ chain fb, c < w.dt.slots :=
    fun c hc => (hat.lt c hc).trans hst.sized.fatNum_lt_slots
  have hend : ENDSEC ∉ chain fb := fun hm => hst.sized.ne_endsec (hat.lt _ hm) rfl
  have hlink := hat.linked
  have hlen := (hat.length_le hst.sized).trans_lt hst.sized.fatNum_lt
  rw [hrest] at hlt hend hlink hlen ⊢
  exact wp_resetFat hlink hlt hend (hH.imp_right fun h => hlen.trans h.fuel)

theorem kept_freed {fb : Nat} {o : Obj} (hst : Store w.dt fs chain)
    (ho : fs fb = some o) (d : Nat) :
    Kept (Function.update fs fb none) chain chain d w.dt (freed w.dt (chain fb)) := by
  intro m o₁ hm _
  have hne : m ≠ fb := by
    rintro rfl
    rw [Function.update_self] at hm
    cases hm
  rw [Function.update_of_ne hne] at hm
  refine ⟨rfl, fun c hc => ⟨cleared_of_not_mem fun hcf => ?_, rfl⟩⟩
  exact hst.disjoint m fb o₁ o hm ho hne hc hcf

/-- The end `c_remove` and `c_rmdir` share takes the entry and its object out of the tree. -/
theorem wp_dropEntry {d uid p j : Nat} {flags : UInt8} {kids : List Ent} {e : Ent} {pdata : Buf}
    (hst : Store w.dt fs chain) (ht : Tree fs) (ho : fs d = some ⟨uid, flags, .dir p kids⟩)
    (hj : kids[j]? = some e) (hleaf : fs.kids e.fb = [])
    (hh : Holds pdata.bytes (chain d).length d ⟨uid, flags, .dir p kids⟩)
    (hsize : 512 * (chain d).length ≤ pdata.size) (hmem : w.env.heap .tail 0 ≠ none)
    (hH : H ∨ (Ample w.env ∧ Ordered fs chain)) :
    wpOr H (dropEntry d pdata (entryOff (j + 2)))
      (fun r w' => r = 0 ∧ Drops fs chain d e w w' ∧
        metaCount (w'.dt.data d) = u32Sub (metaCount pdata.bytes) 1) w := by
  have hu : Unlinkable fs d ⟨uid, flags, .dir p kids⟩ p kids j e := ⟨ho, rfl, hj, hleaf⟩
  have hne : e.fb ≠ d := hu.ne ht
  obtain ⟨oe, hoe, -⟩ := ht.typed d e hu.mem
  have hat := hst.obj d _ ho
  have hpos := hat.length_pos
  have hcount := hh.setCount (v := u32Sub (metaCount pdata.bytes) 1)
  have hdir : DirImage (putLE pdata.bytes 4 4 (u32Sub (metaCount pdata.bytes) 1)) (chain d).length
      (table d p kids) := hcount.node
  have hget : (table d p kids)[j + 2]? = some e := hj
  have hj' : j + 2 < (table d p kids).length := (List.getElem?_eq_some_iff.mp hget).1
  have hfb := (hdir.entry (j + 2) e hget).fb
  have hflen := hdir.flen
  have hle := hdir.le
  have hchain := hat.length_le hst.sized
  have hnum := hst.sized.fatNum_lt
  unfold dropEntry
  simp only [wp_bind, wp_store, hfb]
  refine ⟨by omega, wp_mono (wp_resetObj hst hoe (hH.imp_right And.left)) ?_⟩
  rintro _ _ rfl
  refine wp_mono (wp_doRemoveEntry (w := { w with dt := freed w.dt (chain e.fb) }) hdir hj' hsize)
    ?_
  rintro ⟨r, pdata'⟩ w₂ ⟨rfl, ⟨-, hnull⟩ | hr⟩
  · exact absurd hnull hmem
  cases hr
  simp only [ne_eq, not_true_eq_false, if_false, wp_bind, wp_pure]
  -- the table without the entry is written over the old one
  have hst₁ : Store (freed w.dt (chain e.fb)) (Function.update fs e.fb none) chain := hst.free hoe
  have hlow : 64 ≤ entryOff (j + 2) := by
    simp only [entryOff, metaSize, entrySize]
    omega
  have hrem : DirImage (removed (putLE pdata.bytes 4 4 (u32Sub (metaCount pdata.bytes) 1))
      (entryOff (j + 2)) (metaFlen (putLE pdata.bytes 4 4 (u32Sub (metaCount pdata.bytes) 1)))
      (metaStrbase (putLE pdata.bytes 4 4 (u32Sub (metaCount pdata.bytes) 1))) w.env.now)
      (chain d).length ((table d p kids).eraseIdx (j + 2)) := removed_dir hdir hj' (by omega)
  generalize hb : removed (putLE pdata.bytes 4 4 (u32Sub (metaCount pdata.bytes) 1))
    (entryOff (j + 2)) (metaFlen (putLE pdata.bytes 4 4 (u32Sub (metaCount pdata.bytes) 1)))
    (metaStrbase (putLE pdata.bytes 4 4 (u32Sub (metaCount pdata.bytes) 1))) w.env.now
    = img at hrem ⊢
  have himg : Holds img (chain d).length d ⟨uid, flags, .dir p (kids.eraseIdx j)⟩ := by
    subst hb
    exact ⟨(removed_uid hlow).trans hcount.uid, (removed_flags hlow).trans hcount.flags,
      (removed_blocks hlow).trans hcount.blocks, hrem⟩
  have himgCount : metaCount img = u32Sub (metaCount pdata.bytes) 1 := by
    subst hb
    have hlt : u32Sub (metaCount pdata.bytes) 1 < 2 ^ 32 := Nat.mod_lt _ (by decide)
    exact (removed_count hlow).trans (getLE_putLE hlt)
  have hflen' := hrem.flen
  have hle' := hrem.le
  refine wp_mono (wp_writeObj_headed (w := { w with
      dt := freed w.dt (chain e.fb), env := w.env.pop .tail }) hst₁
    ((Function.update_of_ne (Ne.symm hne) _ _).trans ho) himg (by omega) (Nat.le_refl _)
    (by omega) (hH.imp_right fun h => ⟨h.1.later (Later.pop _ _), ?_⟩)) ?_
  · obtain ⟨rest, hrest⟩ := hat.cons
    exact spare_own hrest (h.2 d _ ho) hat.lt (Nat.le_refl _)
  rintro _ w' ⟨⟨cs, hrew⟩, hheaded⟩
  refine ⟨trivial, ⟨uid, flags, p, kids, j, Function.update chain d cs, ho, hu, hrew.store, ?_,
    (Later.pop _ _).trans hrew.later, hrew.ipIndex, hrew.maxBlockNum,
    fun h => (h.remove e.fb).update hrew.sorted _ _⟩, (hheaded 4 4 (by decide)).trans himgCount⟩
  exact (kept_freed hst hoe d).trans hrew.kept fun m o₁ hm _ => ⟨o₁, hm⟩

/-- An entry of a table that is not a directory, or not one of the first two, is a kid. -/
theorem kid_of_table {d p i : Nat} {kids : List Ent} {e : Ent}
    (h : (table d p kids)[i]? = some e) :
    (i = 0 ∧ e = ⟨dotName, d, S_DIR⟩) ∨ (i = 1 ∧ e = ⟨dotdotName, p, S_DIR⟩) ∨
      ∃ j, i = j + 2 ∧ kids[j]? = some e := by
  match i, h with
  | 0, h =>
    cases h
    exact .inl ⟨rfl, rfl⟩
  | 1, h =>
    cases h
    exact .inr (.inl ⟨rfl, rfl⟩)
  | j + 2, h => exact .inr (.inr ⟨j, rfl, h⟩)

/-- The operation has read the table `pdata` of the directory `d` and found the entry `e` in it,
as number `i`. -/
structure Spotted (fs : Fs) (chain : Nat → List Nat) (d uid : Nat) (flags : UInt8) (p : Nat)
    (kids : List Ent) (e : Ent) (i : Nat) (pdata : Buf) (w w' : World) : Prop where
  same : Same w w'
  tail : w'.env.heap .tail = w.env.heap .tail
  dir : fs d = some ⟨uid, flags, .dir p kids⟩
  entry : (table d p kids)[i]? = some e
  holds : Holds pdata.bytes (chain d).length d ⟨uid, flags, .dir p kids⟩
  count : metaCount pdata.bytes = metaCount (w.dt.data d)
  room : 512 * (chain d).length ≤ pdata.size

/-- `c_remove` up to the point where it drops the entry of a file. -/
theorem wp_cRemove_until {Q : Int → World → Prop} (hst : Store w.dt fs chain) (ht : Tree fs)
    (path : CStr) (uid : UInt32)
    (hno : ∀ c, removePlan (view fs) path uid = .error c → ∀ w', Same w w' → Q c w')
    (hoom : OutOfMemory w.env → (∀ a, removePlan (view fs) path uid = .ok a →
      ¬ Searches w.env path) → ∀ w', Same w w' → Q (-9) w')
    (hdrop :
      ∀ (d : Nat) (e : Ent) (ouid : Nat) (flags : UInt8) (p : Nat) (kids : List Ent) (j : Nat)
      (pdata : Buf) (w' : World), removePlan (view fs) path uid = .ok (d, e) →
      Searches w.env path → Spotted fs chain d ouid flags p kids e (j + 2) pdata w w' →
      kids[j]? = some e → fs.kids e.fb = [] →
      wpOr H (dropEntry d pdata (entryOff (j + 2))) Q w')
    (hH : H ∨ Ample w.env) : wpOr H (cRemove path uid) Q w := by
  unfold removePlan at hno hoom hdrop
  refine wp_atTarget (g := id) hst ht rfl (fun c hc w' hs => ?_) (fun hm hgives w' hs => ?_) ?_ hH
  · exact hno c (by rw [hc]) w' hs
  · refine hoom hm (fun a ha hmem => ?_) w' hs
    cases htarget : target (view fs) path 1 1 with
    | error c =>
      rw [htarget] at ha
      cases ha
    | ok q => exact hgives q htarget hmem.lookup
  intro parent name htarget w₁ htook₁
  have hs₁ := htook₁.same
  obtain ⟨ouid, flags, p, kids, ho⟩ := target_dir ht htarget
  have hst₁ : Store w₁.dt fs chain := by rw [hs₁.dt]; exact hst
  have hat := hst₁.obj _ _ ho
  simp only [htarget, view_may ho] at hno hoom hdrop
  simp only [wp_bind, wp_readSector, hst₁.sized.sectorOf hat.head_lt, hst₁.sized.dataSecs,
    header_perm hat, wp_ite, wp_pure]
  refine ⟨hat.head_lt, ?_⟩
  by_cases hperm : perm uid ⟨ouid, flags, .dir p kids⟩ W = 0
  · simp only [if_pos hperm] at hno ⊢
    exact hno 4 rfl w₁ hs₁
  simp only [if_neg hperm] at hno hoom hdrop ⊢
  rw [← wp_bind]
  refine wp_searchTable hst₁ ho (Nat.le_of_eq (hat.buffer_size hst₁.sized).symm)
    (fun hm w' hs => ?_) ?_ (hH.imp_right fun h => h.later hs₁.later)
  · refine hoom ((outOfMemory_of_none hm).later hs₁.later) (fun a _ hmem => hmem.table ?_) w'
      (hs₁.trans hs)
    rw [← htook₁.other (by decide)]
    exact hm
  intro pdata r w₂ htook₂ hsize hholds hagree hfound
  have hs := hs₁.trans htook₂.same
  have hst₂ : Store w₂.dt fs chain := by rw [hs.dt]; exact hst
  have hmem : Searches w.env path := by
    refine ⟨htook₁.gives, ?_⟩
    rw [← htook₁.other (by decide)]
    exact Env.gives_one.mp htook₂.gives
  rcases hfound with ⟨rfl, hnone⟩ | ⟨i, e, rfl, hget, hsome⟩
  · simp only [view, hnone] at hno
    exact (wp_pure _ _ _).mpr (hno 1 rfl w₂ hs)
  have hdir : DirImage pdata.bytes (chain parent.fb).length (table parent.fb p kids) := hholds.node
  rw [ents_of_dir ho] at hget
  have hent := hdir.entry i e hget
  simp only [view, hsome] at hno hdrop
  simp only [hent.type, hent.fb]
  by_cases hfile : e.type = S_DIR
  · simp only [if_pos hfile] at hno ⊢
    exact (wp_pure _ _ _).mpr (hno 2 rfl w₂ hs)
  simp only [if_neg hfile, wp_bind, wp_readSector] at hdrop ⊢
  obtain ⟨j, rfl, hj⟩ : ∃ j, i = j + 2 ∧ kids[j]? = some e := by
    rcases kid_of_table hget with ⟨_, rfl⟩ | ⟨_, rfl⟩ | hkid
    · exact absurd rfl hfile
    · exact absurd rfl hfile
    · exact hkid
  obtain ⟨fuid, fflags, len, recs, hof⟩ := file_of_typed (ht.typed_ents (findName_mem hsome)) hfile
  have hlive := (hst₂.obj _ _ hof).head_lt
  refine ⟨by rw [hst₂.sized.sectorOf hlive, hst₂.sized.dataSecs]; exact hlive, ?_⟩
  have hleaf : fs.kids e.fb = [] := by simp only [Fs.kids, hof]
  refine hdrop parent.fb e ouid flags p kids j pdata w₂ rfl hmem ⟨hs, ?_, ho, hget, hholds, ?_, ?_⟩
    hj hleaf
  · exact others_searched htook₁ htook₂ (by decide) (by decide)
  · rw [← hs₁.dt]
    exact (header_of_read hat hagree (by decide)).symm
  · rw [hsize, hat.buffer_size hst₁.sized]

/-- `c_remove` does what its plan says. -/
theorem wp_cRemove (hst : Store w.dt fs chain) (ht : Tree fs) (path : CStr) (uid : UInt32)
    (hmem : ∀ a, removePlan (view fs) path uid = .ok a → Searches w.env path →
      w.env.heap .tail 0 ≠ none)
    (hH : H ∨ (Ample w.env ∧ Ordered fs chain)) :
    wpOr H (cRemove path uid)
      (Outcome w (removePlan (view fs) path uid) fun a r w' =>
        r = 0 ∧ Drops fs chain a.1 a.2 w w') w := by
  refine wp_cRemove_until hst ht path uid (fun c hc w' hs => ?_) (fun hm _ w' hs => ?_)
    (fun d e ouid flags p kids j pdata w₁ hplan hgot hspot hj hleaf => ?_) (hH.imp_right And.left)
  · rw [hc]
    exact .inr ⟨hs, rfl⟩
  · exact .inl ⟨hs, by decide, hm⟩
  have hst₁ : Store w₁.dt fs chain := by rw [hspot.same.dt]; exact hst
  have htail : w₁.env.heap .tail 0 ≠ none := by
    rw [hspot.tail]
    exact hmem _ hplan hgot
  refine wp_mono (wp_dropEntry hst₁ ht hspot.dir hj hleaf hspot.holds hspot.room htail
    (hH.imp_right fun h => ⟨h.1.later hspot.same.later, h.2⟩)) ?_
  rintro r w' ⟨rfl, hdrops, -⟩
  rw [hplan]
  exact .inr ⟨rfl, hdrops.after hspot.same⟩

theorem ents_length {d uid p : Nat} {flags : UInt8} {kids : List Ent}
    (h : fs d = some ⟨uid, flags, .dir p kids⟩) : (fs.ents d).length = kids.length + 2 := by
  rw [ents_of_dir h]
  rfl

/-- An empty directory other than `d` in the table of `d` is a kid. -/
theorem kid_of_empty (ht : Tree fs) {d uid p i : Nat} {flags : UInt8} {kids : List Ent} {e : Ent}
    (ho : fs d = some ⟨uid, flags, .dir p kids⟩) (hget : (table d p kids)[i]? = some e)
    (hempty : ∃ euid eflags ep, fs e.fb = some ⟨euid, eflags, .dir ep []⟩) (hne : e.fb ≠ d) :
    ∃ j, i = j + 2 ∧ kids[j]? = some e := by
  rcases kid_of_table hget with ⟨_, rfl⟩ | ⟨_, rfl⟩ | hkid
  · exact absurd rfl hne
  · -- the directory above is not empty: the one at hand is in it
    exfalso
    obtain ⟨euid, eflags, ep, hoe⟩ := hempty
    by_cases hroot : d = rootFb
    · obtain ⟨ruid, rflags, rkids, hr⟩ := ht.root
      rw [hroot, hr] at ho
      cases ho
      exact hne hroot.symm
    · obtain ⟨e', hmem', _⟩ := ht.up _ _ _ _ _ ho hroot
      rw [kids_of_dir hoe] at hmem'
      cases hmem'
  · exact hkid

/-- `c_rmdir` up to the point where it drops the entry of an empty directory. -/
theorem wp_cRmdir_until {Q : Int → World → Prop} (hst : Store w.dt fs chain) (ht : Tree fs)
    (path : CStr) (uid : UInt32)
    (hno : ∀ c, rmdirPlan (view fs) path uid = .error c → ∀ w', Same w w' → Q c w')
    (hoom : OutOfMemory w.env → (∀ a, rmdirPlan (view fs) path uid = .ok a →
      ¬ (Searches w.env path ∧ w.env.heap .image 0 ≠ none)) → ∀ w', Same w w' → Q (-9) w')
    (hdrop :
      ∀ (d : Nat) (e : Ent) (ouid : Nat) (flags : UInt8) (p : Nat) (kids : List Ent) (i : Nat)
      (pdata : Buf) (w' : World), rmdirPlan (view fs) path uid = .ok (d, e) →
      Searches w.env path ∧ w.env.heap .image 0 ≠ none →
      Spotted fs chain d ouid flags p kids e i pdata w w' →
      (∃ euid eflags ep, fs e.fb = some ⟨euid, eflags, .dir ep []⟩) →
      wpOr H (dropEntry d pdata (entryOff i)) Q w')
    (hH : H ∨ Ample w.env) : wpOr H (cRmdir path uid) Q w := by
  unfold rmdirPlan at hno hoom hdrop
  refine wp_atTarget (g := id) hst ht rfl (fun c hc w' hs => ?_) (fun hm hgives w' hs => ?_) ?_ hH
  · exact hno c (by rw [hc]) w' hs
  · refine hoom hm (fun a ha hmem => ?_) w' hs
    cases htarget : target (view fs) path 1 1 with
    | error c =>
      rw [htarget] at ha
      cases ha
    | ok q => exact hgives q htarget hmem.1.lookup
  intro parent name htarget w₁ htook₁
  have hs₁ := htook₁.same
  obtain ⟨ouid, flags, p, kids, ho⟩ := target_dir ht htarget
  have hst₁ : Store w₁.dt fs chain := by rw [hs₁.dt]; exact hst
  have hat := hst₁.obj _ _ ho
  simp only [htarget, view_may ho] at hno hoom hdrop
  simp only [wp_bind, wp_readSector, hst₁.sized.sectorOf hat.head_lt, hst₁.sized.dataSecs,
    header_perm hat, wp_ite, wp_pure]
  refine ⟨hat.head_lt, ?_⟩
  by_cases hperm : perm uid ⟨ouid, flags, .dir p kids⟩ W = 0
  · simp only [if_pos hperm] at hno ⊢
    exact hno 4 rfl w₁ hs₁
  simp only [if_neg hperm] at hno hoom hdrop ⊢
  rw [← wp_bind]
  refine wp_searchTable hst₁ ho (Nat.le_of_eq (hat.buffer_size hst₁.sized).symm)
    (fun hm w' hs => ?_) ?_ (hH.imp_right fun h => h.later hs₁.later)
  · refine hoom ((outOfMemory_of_none hm).later hs₁.later) (fun a _ hmem => hmem.1.table ?_) w'
      (hs₁.trans hs)
    rw [← htook₁.other (by decide)]
    exact hm
  intro pdata r w₂ htook₂ hsize hholds hagree hfound
  have hs := hs₁.trans htook₂.same
  have hst₂ : Store w₂.dt fs chain := by rw [hs.dt]; exact hst
  rcases hfound with ⟨rfl, hnone⟩ | ⟨i, e, rfl, hget, hsome⟩
  · simp only [view, hnone] at hno
    exact (wp_pure _ _ _).mpr (hno 1 rfl w₂ hs)
  have hdir : DirImage pdata.bytes (chain parent.fb).length (table parent.fb p kids) := hholds.node
  rw [ents_of_dir ho] at hget
  have hent := hdir.entry i e hget
  simp only [view, hsome] at hno hoom hdrop
  simp only [hent.type, hent.fb]
  by_cases hdirtype : e.type = S_DIR
  swap
  · simp only [ne_eq, hdirtype, not_false_eq_true, if_true] at hno ⊢
    exact (wp_pure _ _ _).mpr (hno 2 rfl w₂ hs)
  simp only [ne_eq, hdirtype, not_true_eq_false, if_false] at hno hoom hdrop ⊢
  obtain ⟨euid, eflags, ep, ekids, hoe⟩ :=
    dir_of_typed (ht.typed_ents (findName_mem hsome)) hdirtype
  have hate := hst₂.obj _ _ hoe
  have hlen := ents_length hoe
  simp only [wp_bind, wp_readSector, hst₂.sized.sectorOf hate.head_lt, hst₂.sized.dataSecs,
    wp_malloc, hate.buffer_size hst₂.sized]
  refine ⟨hate.head_lt, ?_⟩
  cases hm : w₂.env.heap .image 0 with
  | none =>
    refine (wp_pure _ _ _).mpr (hoom ((outOfMemory_of_none hm).later hs.later)
      (fun a _ hmem => ?_) _
      (hs.trans (Same.pop w₂ _)))
    rw [others_searched htook₁ htook₂ (by decide) (by decide)] at hm
    exact hmem.2 hm
  | some junk =>
    simp only [Option.map_some, wp_bind]
    have hs₃ : Same w { w₂ with env := w₂.env.pop .image } := hs.trans (Same.pop w₂ _)
    refine wp_mono (wp_readObj (w := { w₂ with env := w₂.env.pop .image }) hst₂.sized hate
      (Nat.le_refl _) (hH.imp_right fun h => h.later hs₃.later)) ?_
    rintro buf w₄ ⟨rfl, -, -, -⟩
    have hed : DirImage (imageOf w₂.dt.data (chain e.fb)) (chain e.fb).length
        (table e.fb ep ekids) := hate.holds.node
    have hbase : metaStrbase (w₂.dt.data e.fb) = 16 * (ekids.length + 2) :=
      (hate.header_field (by omega)).trans hed.strbase
    have hempty : isDirEmpty (w₂.dt.data e.fb) = true ↔ ekids = [] := by
      simp only [isDirEmpty, hbase, entrySize, Bool.not_eq_true', decide_eq_false_iff_not, not_lt]
      rw [← List.length_eq_zero_iff]
      omega
    by_cases hkids : ekids = []
    swap
    · have hfull : ¬ isDirEmpty (w₂.dt.data e.fb) = true := fun h => hkids (hempty.mp h)
      have hlong : (fs.ents e.fb).length > 2 := by
        have := List.length_pos_iff.mpr hkids
        omega
      simp only [hlong, if_true] at hno
      simp only [hfull, Bool.not_false, if_true]
      exact (wp_pure _ _ _).mpr (hno 3 rfl _ hs₃)
    have hshort : ¬ (fs.ents e.fb).length > 2 := by
      rw [hlen, hkids]
      decide
    simp only [hshort, if_false] at hdrop
    simp only [hempty.mpr hkids, Bool.not_true, Bool.false_eq_true, if_false]
    have hmem : Searches w.env path ∧ w.env.heap .image 0 ≠ none := by
      refine ⟨⟨htook₁.gives, ?_⟩, ?_⟩
      · rw [← htook₁.other (by decide)]
        exact Env.gives_one.mp htook₂.gives
      · rw [← others_searched htook₁ htook₂ (by decide) (by decide), hm]
        exact Option.some_ne_none _
    refine hdrop parent.fb e ouid flags p kids i pdata _ rfl hmem
      ⟨hs₃, ?_, ho, hget, hholds, ?_, ?_⟩ ⟨euid, eflags, ep, hkids ▸ hoe⟩
    · exact others_searched htook₁ htook₂ (by decide) (by decide)
    · rw [← hs₁.dt]
      exact (header_of_read hat hagree (by decide)).symm
    · rw [hsize, hat.buffer_size hst₁.sized]

/-- `c_rmdir` does what its plan says, except to the directory it works in, and counts the
directory no more. -/
theorem wp_cRmdir_counts (hst : Store w.dt fs chain) (ht : Tree fs) (path : CStr) (uid : UInt32)
    (hself : ∀ d e, rmdirPlan (view fs) path uid = .ok (d, e) →
      Searches w.env path ∧ w.env.heap .image 0 ≠ none → e.fb ≠ d ∧ w.env.heap .tail 0 ≠ none)
    (hH : H ∨ (Ample w.env ∧ Ordered fs chain)) :
    wpOr H (cRmdir path uid)
      (Outcome w (rmdirPlan (view fs) path uid) fun a r w' => r = 0 ∧ Drops fs chain a.1 a.2 w w' ∧
        metaCount (w'.dt.data a.1) = u32Sub (metaCount (w.dt.data a.1)) 1) w := by
  refine wp_cRmdir_until hst ht path uid (fun c hc w' hs => ?_) (fun hm _ w' hs => ?_)
    (fun d e ouid flags p kids i pdata w₁ hplan hgot hspot hempty => ?_) (hH.imp_right And.left)
  · rw [hc]
    exact .inr ⟨hs, rfl⟩
  · exact .inl ⟨hs, by decide, hm⟩
  obtain ⟨hne, htail⟩ := hself d e hplan hgot
  obtain ⟨j, rfl, hj⟩ := kid_of_empty ht hspot.dir hspot.entry hempty hne
  obtain ⟨euid, eflags, ep, hoe⟩ := hempty
  have hs := hspot.same
  have hst₁ : Store w₁.dt fs chain := by rw [hs.dt]; exact hst
  rw [← hspot.tail] at htail
  refine wp_mono (wp_dropEntry hst₁ ht hspot.dir hj (kids_of_dir hoe) hspot.holds hspot.room htail
    (hH.imp_right fun h => ⟨h.1.later hs.later, h.2⟩)) ?_
  rintro r w' ⟨rfl, hdrops, hdropped⟩
  rw [hplan]
  rw [hspot.count] at hdropped
  exact .inr ⟨rfl, hdrops.after hs, hdropped⟩

/-- `c_rmdir` does what its plan says, except to the directory it works in. -/
theorem wp_cRmdir (hst : Store w.dt fs chain) (ht : Tree fs) (path : CStr) (uid : UInt32)
    (hself : ∀ d e, rmdirPlan (view fs) path uid = .ok (d, e) →
      Searches w.env path ∧ w.env.heap .image 0 ≠ none → e.fb ≠ d ∧ w.env.heap .tail 0 ≠ none)
    (hH : H ∨ (Ample w.env ∧ Ordered fs chain)) :
    wpOr H (cRmdir path uid)
      (Outcome w (rmdirPlan (view fs) path uid) fun a r w' =>
        r = 0 ∧ Drops fs chain a.1 a.2 w w') w :=
  wp_mono (wp_cRmdir_counts hst ht path uid hself hH) fun _ _ h =>
    h.mono fun _ hdid => ⟨hdid.1, hdid.2.1⟩

/-- Dropping the entry that names the directory itself returns 0 as well. -/
theorem wp_dropEntry_self {d uid p i : Nat} {flags : UInt8} {kids : List Ent} {e : Ent}
    {pdata : Buf} (hst : Store w.dt fs chain) (ho : fs d = some ⟨uid, flags, .dir p kids⟩)
    (hget : (table d p kids)[i]? = some e) (he : e.fb = d)
    (hh : Holds pdata.bytes (chain d).length d ⟨uid, flags, .dir p kids⟩)
    (hsize : 512 * (chain d).length ≤ pdata.size) (hmem : w.env.heap .tail 0 ≠ none)
    (hH : H ∨ (Ample w.env ∧ Ordered fs chain)) :
    wpOr H (dropEntry d pdata (entryOff i)) (fun r _ => r = 0) w := by
  have hat := hst.obj d _ ho
  have hpos := hat.length_pos
  have hcount := hh.setCount (v := u32Sub (metaCount pdata.bytes) 1)
  have hdir : DirImage (putLE pdata.bytes 4 4 (u32Sub (metaCount pdata.bytes) 1)) (chain d).length
      (table d p kids) := hcount.node
  have hi : i < (table d p kids).length := (List.getElem?_eq_some_iff.mp hget).1
  have hflen := hdir.flen
  have hle := hdir.le
  have hchain := hat.length_le hst.sized
  have hnum := hst.sized.fatNum_lt
  unfold dropEntry
  simp only [wp_bind, wp_store, (hdir.entry i e hget).fb, he]
  refine ⟨by omega, wp_mono (wp_resetObj hst ho (hH.imp_right And.left)) ?_⟩
  rintro _ _ rfl
  refine wp_mono (wp_doRemoveEntry (w := { w with dt := freed w.dt (chain d) }) hdir hi hsize) ?_
  rintro ⟨r, pdata'⟩ w₂ ⟨rfl, ⟨-, hnull⟩ | hr⟩
  · exact absurd hnull hmem
  cases hr
  simp only [ne_eq, not_true_eq_false, if_false, wp_bind, wp_pure]
  -- the freed slot points to slot 0, which still ends a chain
  have hlow : 64 ≤ entryOff i := by
    simp only [entryOff, metaSize, entrySize]
    omega
  have hzero : 0 ∉ chain d := fun hm => hst.ne_zero_of_mem ho hm rfl
  have hlink : Linked (freed w.dt (chain d)).fat ENDSEC [d, 0] :=
    ⟨cleared_of_mem hat.head_mem, (cleared_of_not_mem hzero).trans hst.reserved⟩
  have hblocks : metaBlocks (removed (putLE pdata.bytes 4 4 (u32Sub (metaCount pdata.bytes) 1))
      (entryOff i) (metaFlen (putLE pdata.bytes 4 4 (u32Sub (metaCount pdata.bytes) 1)))
      (metaStrbase (putLE pdata.bytes 4 4 (u32Sub (metaCount pdata.bytes) 1))) w.env.now)
      = (chain d).length - 1 + 1 := by
    rw [removed_blocks hlow, hcount.blocks]
    omega
  refine wp_mono (wp_doWritefile (w := { w with
      dt := freed w.dt (chain d), env := w.env.pop .tail }) (freed_sized hst.sized _)
    (freed_topFree hst.topFree _) hlink (fun c hc => ?_) hblocks (getLE_lt _ 8 8)
    (hH.imp_right fun h => ⟨h.1.later (Later.pop _ _), by simp, ?_⟩)) fun _ _ _ => trivial
  · rcases List.mem_cons.mp hc with rfl | hc
    · exact hat.head_lt
    · rw [List.mem_singleton.mp hc]
      exact hst.usable
  · -- the sectors it had are behind it and free
    obtain ⟨rest, hrest⟩ := hat.cons
    refine (spare_own hrest (h.2 d _ ho) hat.lt (Nat.le_refl _)).mono (fun c hc => ?_)
      fun c hc => hc
    by_cases hm : c ∈ [d, 0]
    · exact cleared_of_mem hm
    · exact (cleared_of_not_mem hm).trans hc

end Remove

section Move

variable {w : World}

/-- The lookups and the tables of a move succeed. -/
structure Reaches (e : Env) (srcpath dstpath : CStr) : Prop where
  lookup : Env.Gives e .lookup (tablesAbove srcpath + tablesAbove dstpath)
  table : e.heap .table 0 ≠ none
  dstTable : e.heap .dstTable 0 ≠ none

/-- The move has read the tables `sdata` and `ddata` of the directories `s` and `d`: number `i` of
the first is the entry `e` to move, and the second has no entry `dname`. -/
structure Ready (fs : Fs) (chain : Nat → List Nat) (s d : Nat) (e : Ent) (dname : CStr) (i : Nat)
    (sdata ddata : Buf) (w w' : World) : Prop where
  same : Same w w'
  others : ∀ site, site ≠ .lookup → site ≠ .table → site ≠ .dstTable →
    w'.env.heap site = w.env.heap site
  entry : (fs.ents s)[i]? = some e
  free : findName (fs.ents d) dname = none
  source : ∃ uid flags p kids, fs s = some ⟨uid, flags, .dir p kids⟩ ∧
    Holds sdata.bytes (chain s).length s ⟨uid, flags, .dir p kids⟩
  target : ∃ uid flags p kids, fs d = some ⟨uid, flags, .dir p kids⟩ ∧
    Holds ddata.bytes (chain d).length d ⟨uid, flags, .dir p kids⟩
  source_read : Agree sdata.bytes (w.dt.data s) 0 512
  target_read : Agree ddata.bytes (w.dt.data d) 0 512
  source_size : sdata.size = 512 * ((chain s).length + 1)
  target_size : ddata.size = 512 * ((chain d).length + 1)

/-- A buffer for the table and one more sector. -/
theorem bigger_buffer_size {d : Nat} {o : Obj} {cs : List Nat} (hs : Sized w.dt)
    (h : ObjAt w.dt d o cs) :
    u32 (u32 (metaBlocks (w.dt.data d) + 1) * BYTSPERSEC) = 512 * (cs.length + 1) := by
  have hb : metaBlocks (w.dt.data d) = cs.length :=
    (h.header_field (by omega)).trans h.holds.blocks
  have hle := h.length_le hs
  have hnum : w.dt.sb.fatNum + 1 < 2 ^ 23 := by
    have h1 := hs.exact
    have h2 := hs.fatSec
    have h3 := hs.lt
    omega
  rw [hb]
  simp only [BYTSPERSEC, u32]
  omega

/-- `c_move` up to the point where it begins to change the tables it has read. -/
theorem wp_cMove_until {Q : Int → World → Prop} (hst : Store w.dt fs chain) (ht : Tree fs)
    {srcpath dstpath : CStr} {uid : UInt32}
    (hno : ∀ c, movePlan (view fs) srcpath dstpath uid = .error c → ∀ w', Same w w' → Q c w')
    (hoom : OutOfMemory w.env → (∀ a, movePlan (view fs) srcpath dstpath uid = .ok a →
      ¬ Reaches w.env srcpath dstpath) → ∀ w', Same w w' → Q (-9) w')
    (hmove : ∀ (s d : Nat) (e : Ent) (dname : CStr) (i : Nat) (sdata ddata : Buf) (w' : World),
      movePlan (view fs) srcpath dstpath uid = .ok (s, d, e, dname) →
      Reaches w.env srcpath dstpath → Ready fs chain s d e dname i sdata ddata w w' →
      wpOr H (if s = d then moveSame s sdata i dname else moveAcross s d sdata ddata i dname) Q w')
    (hH : H ∨ Ample w.env) : wpOr H (cMove srcpath dstpath uid) Q w := by
  unfold movePlan target at hno hoom hmove
  unfold cMove
  cases hf : getFilenameFromPath srcpath with
  | none =>
    simp only [hf] at hno
    exact (wp_pure _ _ _).mpr (hno 1 rfl w (Same.refl w))
  | some q =>
  obtain ⟨sdir, sname⟩ := q
  simp only [hf, view] at hno hoom hmove
  cases hf' : getFilenameFromPath dstpath with
  | none =>
    simp only [hf'] at hno
    refine (wp_pure _ _ _).mpr (hno 1 ?_ w (Same.refl w))
    cases resolve fs.ents sdir with
    | none => rfl
    | some e => by_cases hdir : e.type = S_DIR <;> simp only [hdir, if_true, if_false]
  | some q' =>
  obtain ⟨ddir, dname⟩ := q'
  have habove : tablesAbove srcpath = tables sdir := by simp only [tablesAbove, hf]
  have habove' : tablesAbove dstpath = tables ddir := by simp only [tablesAbove, hf']
  simp only [hf'] at hno hoom hmove
  refine wp_lookupDir (g := id) hst ht (fun hm hgives w' hs => hoom hm (fun a ha hmem => ?_) w' hs)
    (fun hr w' hs => ?_) (fun e hr hdir w' hs =>
      ?_) (fun sparent se hr hdir hsfb w₁ htook₁ => ?_) hH
  · have hlook := hmem.lookup
    rw [habove] at hlook
    refine hgives ?_ (Env.gives_add.mp hlook).1
    cases hr : resolve fs.ents sdir with
    | none =>
      rw [hr] at ha
      cases ha
    | some e => rfl
  · exact hno 1 (by simp only [hr]) w' hs
  · exact hno 1 (by simp only [hr, if_neg hdir]) w' hs
  have hs₁ := htook₁.same
  simp only [hr, if_pos hdir] at hno hoom hmove
  have hst₁ : Store w₁.dt fs chain := by rw [hs₁.dt]; exact hst
  refine wp_lookupDir (g := id) hst₁ ht
    (fun hm hgives w' hs => hoom (hm.later hs₁.later) (fun a ha hmem => ?_) w' (hs₁.trans hs))
    (fun hr' w' hs => ?_) (fun e hr' hdir' w' hs => ?_)
    (fun dparent de hr' hdir' hdfb w₂ htook₂ => ?_) (hH.imp_right fun h => h.later hs₁.later)
  · have hlook := hmem.lookup
    rw [habove, habove'] at hlook
    refine hgives ?_ ?_
    · cases hr' : resolve fs.ents ddir with
      | none =>
        rw [hr'] at ha
        cases ha
      | some e => rfl
    · rw [htook₁.world]
      exact (Env.gives_add.mp hlook).2
  · exact hno 1 (by simp only [hr']) w' (hs₁.trans hs)
  · exact hno 1 (by simp only [hr', if_neg hdir']) w' (hs₁.trans hs)
  simp only [hr', if_pos hdir'] at hno hoom hmove
  have htook₀₂ := htook₁.trans htook₂
  have hs₀₂ := htook₀₂.same
  have hst₂ : Store w₂.dt fs chain := by rw [hs₀₂.dt]; exact hst
  obtain ⟨suid, sflags, sp, skids, hso⟩ := dir_of_typed (resolve_typed ht hr) hdir
  obtain ⟨duid, dflags, dp, dkids, hdo⟩ := dir_of_typed (resolve_typed ht hr') hdir'
  rw [← hsfb] at hso hno hoom hmove
  rw [← hdfb] at hdo hno hoom hmove
  have hsat := hst₂.obj _ _ hso
  have hdat := hst₂.obj _ _ hdo
  simp only [hso, hdo] at hno hoom hmove
  simp only [wp_bind, wp_readSector, hst₂.sized.sectorOf hsat.head_lt,
    hst₂.sized.sectorOf hdat.head_lt, hst₂.sized.dataSecs, header_perm hsat, header_perm hdat,
    wp_ite, wp_pure]
  refine ⟨hsat.head_lt, hdat.head_lt, ?_⟩
  by_cases hperm : perm uid ⟨suid, sflags, .dir sp skids⟩ W = 0 ∨
      perm uid ⟨duid, dflags, .dir dp dkids⟩ W = 0
  · simp only [if_pos hperm] at hno ⊢
    exact hno 4 rfl w₂ hs₀₂
  simp only [if_neg hperm] at hno hoom hmove ⊢
  rw [← wp_bind]
  refine wp_searchTable hst₂ hso
    (Nat.le_trans (by omega) (Nat.le_of_eq (bigger_buffer_size hst₂.sized hsat).symm))
    (fun hm w' hs => hoom ((outOfMemory_of_none hm).later hs₀₂.later)
      (fun a _ hmem => hmem.table ?_) w' (hs₀₂.trans hs)) ?_
    (hH.imp_right fun h => h.later hs₀₂.later)
  · rw [← htook₀₂.other (by decide)]
    exact hm
  intro sdata r w₃ htook₃ hssize hsholds hsagree hfound
  have hs₀₃ := hs₀₂.trans htook₃.same
  have hst₃ : Store w₃.dt fs chain := by rw [hs₀₃.dt]; exact hst
  rcases hfound with ⟨rfl, hnone⟩ | ⟨i, e, rfl, hget, hsome⟩
  · simp only [hnone] at hno
    exact (wp_pure _ _ _).mpr (hno 1 rfl w₃ hs₀₃)
  simp only [hsome] at hno hoom hmove
  refine wp_searchTable hst₃ hdo
    (Nat.le_trans (by omega) (Nat.le_of_eq (bigger_buffer_size hst₂.sized hdat).symm))
    (fun hm w' hs => hoom ((outOfMemory_of_none hm).later hs₀₃.later)
      (fun a _ hmem => hmem.dstTable ?_) w' (hs₀₃.trans hs)) ?_
    (hH.imp_right fun h => h.later hs₀₃.later)
  · rw [← htook₀₂.other (by decide), ← htook₃.other (by decide)]
    exact hm
  intro ddata r' w₄ htook₄ hdsize hdholds hdagree hfound'
  have hs₀₄ := hs₀₃.trans htook₄.same
  have hst₄ : Store w₄.dt fs chain := by rw [hs₀₄.dt]; exact hst
  rcases hfound' with ⟨rfl, hnone'⟩ | ⟨i', e', rfl, _, hsome'⟩
  swap
  · simp only [hsome'] at hno
    exact (wp_pure _ _ _).mpr (hno 2 rfl w₄ hs₀₄)
  simp only [hnone'] at hmove
  have hmem : Reaches w.env srcpath dstpath := by
    refine ⟨?_, ?_, ?_⟩
    · rw [habove, habove']
      exact htook₀₂.gives
    · rw [← htook₀₂.other (by decide)]
      exact Env.gives_one.mp htook₃.gives
    · rw [← htook₀₂.other (by decide), ← htook₃.other (by decide)]
      exact Env.gives_one.mp htook₄.gives
  have hsdir : DirImage sdata.bytes (chain sparent.fb).length (table sparent.fb sp skids) :=
    hsholds.node
  have hent := hsdir.entry i e (by rwa [ents_of_dir hso] at hget)
  obtain ⟨oe, hoe, -⟩ := ht.typed_ents (findName_mem hsome)
  have hlive := (hst₄.obj _ _ hoe).head_lt
  simp only [wp_bind, wp_readSector, hent.fb]
  refine ⟨by rw [hst₄.sized.sectorOf hlive, hst₄.sized.dataSecs]; exact hlive, ?_⟩
  rw [bigger_buffer_size hst₂.sized hsat] at hssize
  rw [bigger_buffer_size hst₂.sized hdat] at hdsize
  refine hmove sparent.fb dparent.fb e dname i sdata ddata w₄ rfl hmem
    ⟨hs₀₄, fun site hl htab hdst => ?_, hget, hnone', ⟨_, _, _, _, hso, hsholds⟩,
      ⟨_, _, _, _, hdo, hdholds⟩, ?_, ?_, hssize, hdsize⟩
  · rw [htook₄.other hdst, htook₃.other htab]
    exact htook₀₂.other hl
  · rw [← hs₀₂.dt]
    exact sector_of_read hsat hsagree
  · rw [← hs₀₃.dt]
    exact sector_of_read (hst₃.obj _ _ hdo) hdagree

/-- A `c_move` that its plan refuses changes nothing. -/
theorem wp_cMove_refused (hst : Store w.dt fs chain) (ht : Tree fs) {srcpath dstpath : CStr}
    {uid : UInt32} {c : Int} (hplan : movePlan (view fs) srcpath dstpath uid = .error c)
    (hH : H ∨ Ample w.env) :
    wpOr H (cMove srcpath dstpath uid)
      (fun r w' => Same w w' ∧ ((r < 0 ∧ OutOfMemory w.env) ∨ r = c)) w := by
  refine wp_cMove_until hst ht (fun c' hc w' hs => ?_) (fun hm _ w' hs => ?_)
    (fun s d e dname i sdata ddata w' hok _ _ => ?_) hH
  · rw [hplan] at hc
    cases hc
    exact ⟨hs, .inr rfl⟩
  · exact ⟨hs, .inl ⟨by decide, hm⟩⟩
  · rw [hplan] at hok
    cases hok

end Move

end Sbpfs.Cfs.NamespaceSpec
