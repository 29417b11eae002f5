import Sbpfs.Cfs.BlockListing
import Sbpfs.Cfs.ResolverLaws

/-!
# Listing a directory

`c_opendir` counts the entries of a directory and `c_readdir` copies one of them out. The index
is multiplied in 64 bits, the name is cut to the caller's buffer, and what is listed is looked up
behind the directory's path and a slash.
-/
namespace Sbpfs.Cfs.DirectoryListing

open Sbpfs.Lib.Program Sbpfs.Lib.Memory Sbpfs.Lib.Run
open Sbpfs.Cfs.Layout Sbpfs.Cfs.Rules Sbpfs.Cfs.File Sbpfs.Cfs.FileSpec Sbpfs.Cfs.Lookup
open Sbpfs.Cfs.Image Sbpfs.Cfs.DiskStore Sbpfs.Cfs.LookupSpec Sbpfs.Cfs.ObjectSpec
open Sbpfs.Cfs.DiskView Sbpfs.Cfs.Query Sbpfs.Cfs.BlockListing Sbpfs.Cfs.PathLaws
open Sbpfs.Cfs.ResolverLaws Sbpfs.Cfs.Calls Sbpfs.Cfs.RunSpec Sbpfs.Cfs.Mkfs
open Sbpfs.Cfs.ChainLaws (vast vast_ample)
open Sbpfs.Cfs.Invariants (calm calmly rootPath letterA calm_succeeds rootReading live_root)
open Sbpfs.Spec.FileTree Sbpfs.Spec.Resolve Sbpfs.Spec.Components Sbpfs.Spec.Cut

/-! ## What is copied out -/

/-- The bytes of a name. -/
def chars (name : CStr) : List UInt8 := name.map Subtype.val

/-- The name as far as the buffer holds it, and the type. -/
def shown (e : Ent) : List UInt8 × UInt8 := ((chars e.name).take (MAX_FILENAME - 1), e.type)

/-- What `c_readdir` returns where there is such an entry, and where there is none. -/
def reply (e : Option Ent) : Int × Option (List UInt8 × UInt8) :=
  match e with
  | none => (-1, none)
  | some e => (0, some (shown e))

/-- A string up to its NUL or the end of the buffer. The induction is on the bytes read. -/
theorem takeWhile_name {b : Bytes} {off : Nat} {name : CStr} (h : strEq b off name = true)
    (n : Nat) :
    ((List.range n).map fun i => b (off + i)).takeWhile (· ≠ 0) = (chars name).take n := by
  induction n generalizing off name with
  | zero => rfl
  | succ n ih =>
    rw [List.range_succ_eq_map, List.map_cons, List.map_map]
    cases name with
    | nil =>
      simp only [strEq, beq_iff_eq] at h
      rw [List.takeWhile_cons_of_neg (by simp [h])]
      rfl
    | cons c cs =>
      simp only [strEq, beq_iff_eq, Bool.and_eq_true] at h
      obtain ⟨hc, hcs⟩ := h
      have htail : ((List.range n).map ((fun i => b (off + i)) ∘ Nat.succ))
          = (List.range n).map fun i => b (off + 1 + i) := by
        refine List.map_congr_left fun i _ => ?_
        show b (off + (i + 1)) = b (off + 1 + i)
        rw [Nat.add_assoc, Nat.add_comm 1]
      have hchar : b (off + 0) ≠ 0 := by
        rw [Nat.add_zero, hc]
        exact c.property
      rw [List.takeWhile_cons_of_pos (by simpa using hchar), htail, ih hcs, Nat.add_zero, hc]
      rfl

theorem strncpy_name {b : Bytes} {off : Nat} {name : CStr} (h : strEq b off name = true)
    (n : Nat) : strncpy b n off = (chars name).take (n - 1) := takeWhile_name h (n - 1)

/-- A name is given whole just when the buffer holds it with its NUL. -/
theorem shown_iff (e : Ent) : shown e = (chars e.name, e.type) ↔ e.name.length < MAX_FILENAME := by
  have hlen : (chars e.name).length = e.name.length := List.length_map _
  show ((chars e.name).take 255, e.type) = (chars e.name, e.type) ↔ e.name.length < 256
  rw [Prod.mk.injEq]
  constructor
  · intro h
    have hcut := congrArg List.length h.1
    rw [List.length_take, hlen] at hcut
    omega
  · intro h
    exact ⟨List.take_of_length_le (by omega), rfl⟩

/-! ## The two functions -/

section Stored

variable {fs : Fs} {chain : Nat → List Nat} {w : World} {path : CStr}

/-- `c_readdir` on a directory. -/
theorem cReaddir_run (hst : Store w.dt fs chain) (hmem : Ample w.env) {fb : UInt32} {u p : Nat}
    {fl : UInt8} {kids : List Ent} (ho : fs fb.toNat = some ⟨u, fl, .dir p kids⟩) (k : UInt64) :
    ∃ w', cReaddir fb k w
      = .ok (reply (table fb.toNat p kids)[k.toNat % 2 ^ 60]?, w') := by
  obtain ⟨hread, hbase, junk, buf, w', hmalloc, -, hload, hagree⟩ :=
    reads_object hst hmem .table ho
  have hindex : u64 (k.toNat * entrySize) = k.toNat % 2 ^ 60 * 16 :=
    Nat.mul_mod_mul_right 16 k.toNat (2 ^ 60)
  have hsize : tableSize ⟨u, fl, .dir p kids⟩ fb.toNat = 16 * (table fb.toNat p kids).length := rfl
  unfold cReaddir
  rw [bind_run hread, hindex, hbase, hsize]
  cases he : (table fb.toNat p kids)[k.toNat % 2 ^ 60]? with
  | none =>
    have hge := List.getElem?_eq_none_iff.mp he
    rw [if_pos (show k.toNat % 2 ^ 60 * 16 ≥ 16 * (table fb.toNat p kids).length by omega)]
    exact ⟨w, rfl⟩
  | some e =>
    have hlt := (List.getElem?_eq_some_iff.mp he).1
    rw [if_neg (show ¬ k.toNat % 2 ^ 60 * 16 ≥ 16 * (table fb.toNat p kids).length by omega)]
    rw [bind_run hmalloc]
    dsimp only
    rw [bind_run hload]
    have hholds := (hst.obj _ _ ho).holds
    have hpos := hholds.sectors_pos
    have hdir : DirImage buf.bytes (chain fb.toNat).length (table fb.toNat p kids) :=
      (hholds.congr hagree hholds.extent_le (by omega)).node
    have hent := hdir.entry _ e he
    have hoff : metaSize + k.toNat % 2 ^ 60 * 16 = entryOff (k.toNat % 2 ^ 60) := by
      simp only [entryOff, metaSize, entrySize]
      omega
    rw [hoff]
    refine ⟨w', ?_⟩
    show Except.ok ((0, some (strncpy buf.bytes MAX_FILENAME _, entryType buf.bytes _)), w') = _
    rw [strncpy_name hent.name, hent.type]
    rfl

/-- The path leads to the directory at `fb`. -/
def Leads (fs : Fs) (path : CStr) (fb : Nat) : Prop :=
  (walked path = [] ∧ fb = rootFb) ∨
    (walked path ≠ [] ∧ ∃ d f, LeadsAll fs path d f ∧ f.fb = fb ∧ f.type = S_DIR)

/-- `c_opendir` on the path of a directory gives its number and the length of its table. -/
theorem cOpendir_dir (hst : Store w.dt fs chain) (ht : Tree fs) {uid : UInt32} {k₀ fb count : Nat}
    {w₁ : World} (hrun : cOpendir path uid k₀ w = .ok ((fb, count), w₁)) {u p : Nat} {fl : UInt8}
    {kids : List Ent} (ho : fs fb = some ⟨u, fl, .dir p kids⟩) :
    count = (table fb p kids).length ∧ Leads fs path fb := by
  obtain ⟨r, w₂, hlook, hrest⟩ := bind_ok.mp hrun
  obtain ⟨hsame, hfound⟩ := wp_ok (wp_cLookup_at (H := True) hst ht path (.inl trivial)) hlook
  cases r with
  | error c =>
    obtain ⟨heq, -⟩ := pure_ok.mp hrest
    have hfb : (-1 : Int) = fb := congrArg Prod.fst heq
    omega
  | ok q =>
    -- what was found is live, and the path leads to it
    have hlive : (∃ o, fs q.fb = some o) ∧
        ∀ o, fs q.fb = some o → o.node.IsDir → Leads fs path q.fb := by
      by_cases hpath : walked path = []
      · rw [if_pos hpath] at hfound
        cases hfound
        obtain ⟨uid', flags, kids', hr⟩ := ht.root
        exact ⟨⟨_, hr⟩, fun _ _ _ => .inl ⟨hpath, rfl⟩⟩
      · rw [if_neg hpath] at hfound
        rcases hfound with hoom | hfound
        · cases hoom.1
        · have hat := fun d e => @walkAt_iff fs.ents rootFb d e (walked path) (ents_nodup ht) _
            (Nat.lt_succ_self _)
          cases hq : walkAt fs.ents ((walked path).length + 1) rootFb (walked path) with
          | none =>
            rw [hq] at hfound
            cases hfound
          | some de =>
            obtain ⟨d, e⟩ := de
            rw [hq] at hfound
            obtain ⟨q', heq, hon⟩ := hfound
            cases heq
            obtain ⟨hfb, -, -⟩ := hon.fields hst
            obtain ⟨i, hi, -⟩ := hon
            obtain ⟨o', ho', htyped⟩ := ht.typed_ents (List.mem_of_getElem? hi)
            rw [hfb]
            refine ⟨⟨o', ho'⟩, fun o'' ho'' hdir => .inr ⟨hpath, d, e, (hat d e).mp hq, rfl, ?_⟩⟩
            rw [ho'] at ho''
            cases ho''
            exact htyped.elim And.left fun hf => absurd hdir hf.2
    obtain ⟨⟨o, hobj⟩, hleads⟩ := hlive
    obtain ⟨j, hopen, hcount⟩ := cOpendir_found hst hlook hsame hobj uid k₀
    rw [hrun] at hopen
    obtain ⟨hreply, -⟩ := Prod.mk.inj (Except.ok.inj hopen)
    obtain ⟨hret, rfl⟩ := Prod.mk.inj hreply
    have hperm : perm uid o R ≠ 0 := by
      intro hperm
      rw [if_pos hperm] at hret
      omega
    rw [if_neg hperm] at hret
    have hfb : q.fb = fb := by omega
    rw [hfb] at hobj hleads hcount
    rw [ho] at hobj
    cases hobj
    have hat := hst.obj _ _ ho
    have hbase : metaStrbase (w.dt.data fb) = 16 * (table fb p kids).length :=
      (hat.header_field (by omega)).trans (strbase_eq hat.holds)
    refine ⟨?_, hleads _ ho trivial⟩
    rw [hcount hperm, hbase]
    exact Nat.mul_div_cancel_left _ (by decide)

/-- `c_lookup` finds an object where the components lead to an entry that names it. -/
theorem lookup_iff (hst : Store w.dt fs chain) (ht : Tree fs) (hmem : Ample w.env)
    (hpath : walked path ≠ []) (n : Nat) (t : UInt8) :
    (∃ p w', cLookup path w = .ok (.ok p, w') ∧ p.fb = n ∧ p.type = t) ↔
      ∃ d f, LeadsAll fs path d f ∧ f.fb = n ∧ f.type = t := by
  obtain ⟨r, w', hrun, -, hr⟩ := cLookup_leads hst ht hmem hpath
  rw [hrun]
  rcases hr with hr | hr
  · obtain ⟨⟨c, rfl⟩, hnone⟩ := hr
    constructor
    · intro h
      obtain ⟨p, w'', h, -⟩ := h
      cases h
    · intro h
      obtain ⟨d, f, hall, -⟩ := h
      exact absurd hall (hnone d f)
  · obtain ⟨p, d, f, rfl, hall, hon⟩ := hr
    obtain ⟨hfb, htype, -⟩ := hon.fields hst
    constructor
    · intro h
      obtain ⟨p', w'', h, hn, hty⟩ := h
      cases h
      exact ⟨d, f, hall, hfb.symm.trans hn, htype.symm.trans hty⟩
    · intro h
      obtain ⟨d', f', hall', hn, hty⟩ := h
      obtain ⟨-, rfl⟩ := walks_unique (ents_nodup ht) hall hall'
      exact ⟨p, w', rfl, hfb.trans hn, htype.trans hty⟩

/-- The name behind the path and a slash is looked up in the directory of that path. -/
def Reaches (ents : Nat → List Ent) (path name : CStr) : Prop :=
  walked path ≠ [] ∨ (path = [] ∧ name ≠ []) ∨
    (path = [slash] ∧ name = dotdotName ∧ ∃ E ∈ ents rootFb, E.name = [] ∧ E.type = S_DIR)

/-- The components of the path `//name`. -/
theorem components_doubled {name : CStr} (hfree : slash ∉ name) :
    components (slash :: slash :: name) = [[], name] := by
  show (slash :: name).splitOn slash = [[], name]
  exact splitOn_name hfree []

theorem lookup_entry (hst : Store w.dt fs chain) (ht : Tree fs) (hmem : Ample w.env) {fb : Nat}
    (hleads : Leads fs path fb) {e : Ent} (he : e ∈ fs.ents fb) (hfree : slash ∉ e.name) :
    (∃ p w', cLookup (path ++ slash :: e.name) w = .ok (.ok p, w') ∧ p.fb = e.fb ∧ p.type = e.type)
      ↔ Reaches fs.ents path e.name := by
  rcases hleads with hroot | hbelow
  · obtain ⟨hpath, rfl⟩ := hroot
    rcases walked_nil hpath with rfl | rfl
    · -- the path `/name`
      by_cases hname : e.name = []
      · constructor
        · intro h
          obtain ⟨p, w', hrun, hfb, -⟩ := h
          rw [hname] at hrun
          obtain ⟨-, hp⟩ := wp_ok (wp_cLookup_at (H := True) hst ht _ (.inl trivial)) hrun
          rw [if_pos (show walked ([] ++ [slash]) = [] from rfl)] at hp
          cases hp
          exact absurd ⟨e, nameless_kid he hname, hfb.symm⟩ (ht.top _)
        · intro h
          rcases h with h | ⟨-, h⟩ | ⟨h, -⟩
          · exact absurd rfl h
          · exact absurd hname h
          · cases h
      · have hwalk : components (slash :: e.name) = [e.name] := List.splitOn_eq_singleton hfree
        refine ⟨fun _ => .inr (.inl ⟨rfl, hname⟩), fun _ => ?_⟩
        refine (lookup_iff hst ht hmem (show walked (slash :: e.name) ≠ [] from hname) _ _).mpr ?_
        refine ⟨rootFb, e, ?_, rfl, rfl⟩
        show Walks fs.ents rootFb (components (slash :: e.name)) rootFb e
        rw [hwalk]
        exact walks_single.mpr ⟨rfl, he, rfl⟩
    · -- the path `//name`
      have hwalk : walked ([slash] ++ slash :: e.name) ≠ [] := List.cons_ne_nil _ _
      have hall : ∀ d f, LeadsAll fs ([slash] ++ slash :: e.name) d f ↔
          ∃ E, E ∈ fs.ents rootFb ∧ E.name = [] ∧ E.type = S_DIR ∧ d = E.fb ∧
            f ∈ fs.ents E.fb ∧ f.name = e.name := by
        intro d f
        show Walks fs.ents rootFb (components (slash :: slash :: e.name)) d f ↔ _
        rw [components_doubled hfree, walks_cons (List.cons_ne_nil _ _)]
        simp only [walks_single]
      rw [lookup_iff hst ht hmem hwalk]
      constructor
      · intro h
        obtain ⟨d, f, hf, hfb, -⟩ := h
        obtain ⟨E, hE, hEname, hEtype, -, hmemf, hfname⟩ := (hall d f).mp hf
        exact .inr (.inr ⟨rfl, doubled_same ht he hE hEname hmemf hfname hfb.symm,
          E, hE, hEname, hEtype⟩)
      · intro h
        rcases h with h | ⟨h, -⟩ | ⟨-, hname, hE⟩
        · exact absurd hpath h
        · cases h
        · have hup : Upward fs ([slash] ++ slash :: e.name) := by
            rw [hname]
            exact ⟨rfl, hE⟩
          obtain ⟨hcut, d, hd⟩ := upward_leads ht hup
          rcases root_cases ht he with rfl | rfl | hkid
          · cases hname
          · exact ⟨d, _, hd, rfl, rfl⟩
          · exact absurd hname (kid_name ht hkid).2
  · obtain ⟨hpath, d, f, hf, rfl, htype⟩ := hbelow
    have hne : path ≠ [] := by
      intro h
      rw [h] at hpath
      exact hpath rfl
    have hwalk : walked (path ++ slash :: e.name) ≠ [] := by
      rw [walked_append hne]
      exact List.append_ne_nil_of_right_ne_nil _ (List.cons_ne_nil _ _)
    refine ⟨fun _ => .inl hpath, fun _ => (lookup_iff hst ht hmem hwalk _ _).mpr ?_⟩
    refine ⟨f.fb, e, ?_, rfl, rfl⟩
    unfold LeadsAll
    rw [components_append hpath hfree]
    exact (walks_snoc (components_ne_nil _)).mpr ⟨d, f, hf, htype, rfl, he, rfl⟩

end Stored

/-! ## Names in a run -/

/-- No entry that was made has a slash in its name. -/
def SlashFree (fs : Fs) : Prop := ∀ d, ∀ e ∈ fs.kids d, slash ∉ e.name

/-- New names are what stands behind the last slash of a path. -/
theorem effect_slashFree {fs fs' : Fs} {m m' : Nat} {c : Call} {r : Int}
    (h : Effect fs m c r fs' m') (ht : Tree fs) (hfree : SlashFree fs) : SlashFree fs' := by
  intro d e hnew
  by_cases hold : e ∈ fs.kids d
  · exact hfree d e hold
  · obtain ⟨p, dir, -, hfile⟩ := effect_enters h ht hnew hold
    exact (splitLast_some hfile).2

theorem slashFree_run {s : Sys} (h : Reach Fresh SoundStep s) :
    ∃ fs chain, Store s.dt fs chain ∧ Tree fs ∧ Bounded fs ∧ SlashFree fs := by
  induction h with
  | init hs =>
    obtain ⟨w, w', hmem, -, hrun, rfl⟩ := hs
    obtain ⟨hst, -⟩ := wp_ok (wp_doMkcfs (H := True) hmem (.inl trivial)) hrun
    refine ⟨freshFs, _, hst, freshFs_tree, bounded_fresh, fun d e he => ?_⟩
    obtain ⟨uid, flags, p, kids, hd, he⟩ := dir_of_kid he
    obtain ⟨-, ho⟩ := freshFs_some hd
    cases ho
    cases he
  | step _ hstep ih =>
    obtain ⟨fs, chain, hst, ht, hb, hfree⟩ := ih
    obtain ⟨⟨r, hallow, w', hrun, rfl⟩, hsound⟩ := hstep
    obtain ⟨fs', chain', hst', he⟩ := explained hst ht hb hallow hsound hrun
    exact ⟨fs', chain', hst', he.tree ht, he.bounded hb, effect_slashFree he ht hfree⟩

/-- So it is in the whole table. -/
theorem SlashFree.ents {fs : Fs} (h : SlashFree fs) {d : Nat} {e : Ent} (he : e ∈ fs.ents d) :
    slash ∉ e.name := by
  obtain ⟨uid, flags, p, kids, -, hcase⟩ := ents_cases he
  rcases hcase with rfl | rfl | hkid
  · show slash ∉ dotName
    decide
  · show slash ∉ dotdotName
    decide
  · exact h d e hkid

/-! ## The listing -/

/-- The call with the index `k` succeeds where the table has an entry of that index, gives its
whole name and its type, and the name looked up behind the path leads to what it names. -/
structure Listed (w : World) (path : CStr) (fb : UInt32) (ents : List Ent) (k : UInt64) : Prop where
  succeeds : ∃ r w', cReaddir fb k w = .ok (r, w') ∧ (r.1 = 0 ↔ k.toNat < ents.length)
  entry : ∀ e, ents[k.toNat]? = some e →
    ∃ w', cReaddir fb k w = .ok ((0, some (chars e.name, e.type)), w')
  resolves : ∀ e, ents[k.toNat]? = some e → ∃ p w',
    cLookup (path ++ slash :: e.name) w = .ok (.ok p, w') ∧ p.fb = e.fb ∧ p.type = e.type

theorem reply_success {e : Option Ent} : (reply e).1 = 0 ↔ e ≠ none := by
  cases e with
  | none =>
    constructor
    · intro h
      cases h
    · intro h
      exact absurd rfl h
  | some e => exact ⟨fun _ => Option.some_ne_none e, fun _ => rfl⟩

/-- A directory that `c_opendir` has opened has the number of entries it reports, no two of one
name. An index is served as it should be just when it is that of an entry whose name fits the
buffer and is looked up behind the path, or when it lies outside the table still after the
multiplication. -/
theorem listing_iff {s : Sys} (hs : Reach Fresh SoundStep s) {env env' : Env} (hmem : Ample env')
    {path : CStr} {uid fb : UInt32} {k₀ count : Nat} {w₁ : World}
    (hopen : cOpendir path uid k₀ ⟨s.dt, s.ipIndex, env⟩ = .ok ((fb.toNat, count), w₁))
    (hdir : Live s.dt fb.toNat S_DIR) :
    count = (entries s.dt fb.toNat).length ∧ ((entries s.dt fb.toNat).map Ent.name).Nodup ∧
    ∀ k : UInt64, Listed ⟨s.dt, s.ipIndex, env'⟩ path fb (entries s.dt fb.toNat) k ↔
      (∃ e, (entries s.dt fb.toNat)[k.toNat]? = some e ∧ e.name.length < MAX_FILENAME ∧
        Reaches (entries s.dt) path e.name) ∨ count ≤ k.toNat % 2 ^ 60 := by
  obtain ⟨fs, chain, hst, ht, -, hfree⟩ := slashFree_run hs
  obtain ⟨u, fl, p, kids, ho⟩ := live_dir hst ht hdir
  obtain ⟨hcount, hleads⟩ := cOpendir_dir hst ht hopen ho
  have hents : entries s.dt fb.toNat = fs.ents fb.toNat := ents_agree hst ho
  have htable : fs.ents fb.toNat = table fb.toNat p kids := ents_of_dir ho
  have hreach : ∀ name, Reaches (entries s.dt) path name ↔ Reaches fs.ents path name := by
    intro name
    obtain ⟨uid', flags, kids', hr⟩ := ht.root
    unfold Reaches
    rw [ents_agree hst hr]
  rw [hents]
  refine ⟨by rw [htable, hcount], ents_nodup ht _, fun k => ?_⟩
  rw [hcount, ← htable]
  obtain ⟨w', hrun⟩ := cReaddir_run (w := ⟨s.dt, s.ipIndex, env'⟩) hst hmem ho k
  rw [← htable] at hrun
  have hsmall : (fs.ents fb.toNat).length < 2 ^ 60 := by
    have hat := hst.obj _ _ ho
    have hnode : DirImage (imageOf s.dt.data (chain fb.toNat)) (chain fb.toNat).length
        (table fb.toNat p kids) := hat.holds.node
    have h1 := hnode.le
    have h2 := hat.length_le hst.sized
    have h3 := hst.sized.fatNum_lt
    rw [htable]
    omega
  by_cases hlt : k.toNat < (fs.ents fb.toNat).length
  · have hmod : k.toNat % 2 ^ 60 = k.toNat := Nat.mod_eq_of_lt (hlt.trans hsmall)
    have he := List.getElem?_eq_getElem hlt
    generalize (fs.ents fb.toNat)[k.toNat] = e at he
    rw [hmod, he] at hrun
    have hmem_e : e ∈ fs.ents fb.toNat := List.mem_of_getElem? he
    have hlook := lookup_entry (w := ⟨s.dt, s.ipIndex, env'⟩) hst ht hmem hleads hmem_e
      (hfree.ents hmem_e)
    constructor
    · intro h
      obtain ⟨w'', hentry⟩ := h.entry e he
      rw [hrun] at hentry
      have hshown : shown e = (chars e.name, e.type) :=
        Option.some.inj (Prod.mk.inj (Prod.mk.inj (Except.ok.inj hentry)).1).2
      exact .inl ⟨e, he, (shown_iff e).mp hshown, (hreach _).mpr (hlook.mp (h.resolves e he))⟩
    · intro h
      rcases h with ⟨e', he', hlen, hreaches⟩ | hout
      · rw [he] at he'
        cases he'
        refine ⟨⟨_, w', hrun, fun _ => hlt, fun _ => rfl⟩, fun e' he' => ?_, fun e' he' => ?_⟩
        · rw [he] at he'
          cases he'
          rw [hrun, reply, (shown_iff e).mpr hlen]
          exact ⟨w', rfl⟩
        · rw [he] at he'
          cases he'
          exact hlook.mpr ((hreach _).mp hreaches)
      · omega
  · have hnone : (fs.ents fb.toNat)[k.toNat]? = none :=
      List.getElem?_eq_none_iff.mpr (Nat.le_of_not_lt hlt)
    constructor
    · intro h
      obtain ⟨r, w'', hread, hiff⟩ := h.succeeds
      rw [hrun] at hread
      cases hread
      have hout : (fs.ents fb.toNat)[k.toNat % 2 ^ 60]? = none := by
        by_contra hsome
        exact hlt (hiff.mp (reply_success.mpr hsome))
      exact .inr (List.getElem?_eq_none_iff.mp hout)
    · intro h
      rcases h with ⟨e, he, -⟩ | hout
      · rw [hnone] at he
        cases he
      · rw [List.getElem?_eq_none_iff.mpr hout] at hrun
        refine ⟨⟨_, w', hrun, fun h => absurd rfl (reply_success.mp h), fun h => absurd h hlt⟩,
          fun e he => ?_, fun e he => ?_⟩
        · rw [hnone] at he
          cases he
        · rw [hnone] at he
          cases he

/-- The entries of a disk just made are listed by the path `/.`. -/
theorem listing_fresh : ∃ s, Reach Fresh SoundStep s ∧ (entries s.dt rootFb).length = 2 ∧
    ∀ k : UInt64, k.toNat < 2 →
      Listed ⟨s.dt, s.ipIndex, vast⟩ (rootPath dot) 1 (entries s.dt rootFb) k := by
  have hrun : (execFresh calm blank []).map (fun q =>
      ((cOpendir (rootPath dot) 0 0 ⟨q.2.dt, q.2.ipIndex, calm⟩).map Prod.fst,
        (rootReading q.2.dt).head?, (entries q.2.dt rootFb).map Ent.name))
      = some (.ok (1, 2), some (rootFb, S_DIR), [dotName, dotdotName]) := by decide +kernel
  obtain ⟨q, he, hq⟩ := Option.map_eq_some_iff.mp hrun
  simp only [Prod.mk.injEq] at hq
  obtain ⟨hopen, hroot, hnames⟩ := hq
  have hreach : Reach Fresh SoundStep q.2 :=
    reach_execFresh (fun a ha => absurd ha List.not_mem_nil) (calm_succeeds _) he
  cases hcall : cOpendir (rootPath dot) 0 0 ⟨q.2.dt, q.2.ipIndex, calm⟩ with
  | error stop =>
    rw [hcall] at hopen
    cases hopen
  | ok r =>
    obtain ⟨r, w₁⟩ := r
    rw [hcall] at hopen
    cases hopen
    obtain ⟨hcount, -, hlist⟩ := listing_iff hreach vast_ample
      (show cOpendir (rootPath dot) 0 0 _ = .ok (((1 : UInt32).toNat, 2), w₁) from hcall)
      (live_root hroot)
    refine ⟨q.2, hreach, hcount.symm, fun k hk => (hlist k).mpr (.inl ?_)⟩
    have hlt : k.toNat < (entries q.2.dt rootFb).length := hcount ▸ hk
    have hentry := List.getElem?_eq_getElem hlt
    have hmem := List.mem_map_of_mem (f := Ent.name) (List.mem_of_getElem? hentry)
    rw [hnames] at hmem
    refine ⟨_, hentry, ?_, .inl (List.cons_ne_nil _ _)⟩
    rcases List.mem_cons.mp hmem with h | h
    · rw [h]
      decide
    · rw [List.mem_singleton.mp h]
      decide

theorem returned {α : Type} {r : Except Stop (α × World)} {a : α} (h : r.map Prod.fst = .ok a) :
    ∃ w, r = .ok (a, w) := by
  cases r with
  | error stop => cases h
  | ok q =>
    obtain ⟨a', w⟩ := q
    cases h
    exact ⟨w, rfl⟩

/-- The path `/aa..a` with `n` letters. -/
def longPath (n : Nat) : CStr := slash :: List.replicate n letterA

/-- On a disk just made `c_readdir` gives the entry `.` for the index `2 ^ 60`, and `c_lookup`
does not find the root's entries behind the path `/`. A name of 256 letters comes back without
its last letter. -/
theorem listing_part :
    (∃ s w₁ w₂, Reach Fresh SoundStep s ∧ Live s.dt rootFb S_DIR ∧
      cOpendir [slash] 0 0 ⟨s.dt, s.ipIndex, calm⟩ = .ok ((1, 2), w₁) ∧
      cReaddir 1 (.ofNat (2 ^ 60)) ⟨s.dt, s.ipIndex, calm⟩
        = .ok ((0, some (chars dotName, S_DIR)), w₂) ∧
      ¬ Listed ⟨s.dt, s.ipIndex, calm⟩ [slash] 1 (entries s.dt rootFb) (.ofNat (2 ^ 60)) ∧
      ¬ Listed ⟨s.dt, s.ipIndex, calm⟩ [slash] 1 (entries s.dt rootFb) 0) ∧
    ∃ s w₁ w₂, Reach Fresh SoundStep s ∧ Live s.dt rootFb S_DIR ∧
      cOpendir (rootPath dot) 0 0 ⟨s.dt, s.ipIndex, calm⟩ = .ok ((1, 3), w₁) ∧
      cReaddir 1 2 ⟨s.dt, s.ipIndex, calm⟩
        = .ok ((0, some (List.replicate 255 letterA.val, S_DIR)), w₂) ∧
      ¬ Listed ⟨s.dt, s.ipIndex, calm⟩ (rootPath dot) 1 (entries s.dt rootFb) 2 := by
  constructor
  · have hrun : (execFresh calm blank []).any (fun q =>
        (cOpendir [slash] 0 0 ⟨q.2.dt, q.2.ipIndex, calm⟩).map Prod.fst = .ok (1, 2) ∧
        (cReaddir 1 (.ofNat (2 ^ 60)) ⟨q.2.dt, q.2.ipIndex, calm⟩).map Prod.fst
          = .ok (0, some (chars dotName, S_DIR)) ∧
        (cLookup [slash, slash, dot] ⟨q.2.dt, q.2.ipIndex, calm⟩).map Prod.fst = .ok (.error 1) ∧
        (rootReading q.2.dt).head? = some (rootFb, S_DIR) ∧
        (entries q.2.dt rootFb).map Ent.name = [dotName, dotdotName]) = true := by
      decide +kernel
    obtain ⟨q, he, hq⟩ := (Option.any_eq_true _ _).mp hrun
    obtain ⟨hopen, hread, hlook, hroot, hnames⟩ := decide_eq_true_eq.mp hq
    obtain ⟨w₁, hopen⟩ := returned hopen
    obtain ⟨w₂, hread⟩ := returned hread
    obtain ⟨w₃, hlook⟩ := returned hlook
    have hlen : (entries q.2.dt rootFb).length = 2 := by
      rw [← List.length_map Ent.name, hnames]
      rfl
    refine ⟨q.2, w₁, w₂, reach_execFresh (fun a ha => absurd ha List.not_mem_nil)
      (calm_succeeds _) he, live_root hroot, hopen, hread, fun h => ?_, fun h => ?_⟩
    · obtain ⟨r, w', hrun', hiff⟩ := h.succeeds
      rw [hread] at hrun'
      cases hrun'
      have hlt : (UInt64.ofNat (2 ^ 60)).toNat < (entries q.2.dt rootFb).length := hiff.mp rfl
      rw [hlen] at hlt
      exact absurd hlt (by decide +kernel)
    · have hentry : (entries q.2.dt rootFb)[0]? = some (entries q.2.dt rootFb)[0] :=
        List.getElem?_eq_getElem (by omega)
      have hname : (entries q.2.dt rootFb)[0].name = dotName := by
        have hhead := congrArg (fun l : List CStr => l[0]?) hnames
        rw [List.getElem?_map, hentry] at hhead
        exact Option.some.inj hhead
      obtain ⟨p, w', hfound, -⟩ := h.resolves _ hentry
      rw [hname] at hfound
      have hnone := hlook.symm.trans hfound
      cases hnone
  · have hrun : (execFresh calm blank [calmly (.mkdir (longPath 256) 0)]).any (fun q =>
        (cOpendir (rootPath dot) 0 0 ⟨q.2.dt, q.2.ipIndex, calm⟩).map Prod.fst = .ok (1, 3) ∧
        (cReaddir 1 2 ⟨q.2.dt, q.2.ipIndex, calm⟩).map Prod.fst
          = .ok (0, some (List.replicate 255 letterA.val, S_DIR)) ∧
        (rootReading q.2.dt).head? = some (rootFb, S_DIR) ∧
        (entries q.2.dt rootFb).map Ent.name
          = [dotName, dotdotName, List.replicate 256 letterA]) = true := by
      decide +kernel
    obtain ⟨q, he, hq⟩ := (Option.any_eq_true _ _).mp hrun
    obtain ⟨hopen, hread, hroot, hnames⟩ := decide_eq_true_eq.mp hq
    obtain ⟨w₁, hopen⟩ := returned hopen
    obtain ⟨w₂, hread⟩ := returned hread
    have hlen : (entries q.2.dt rootFb).length = 3 := by
      rw [← List.length_map Ent.name, hnames]
      rfl
    refine ⟨q.2, w₁, w₂, reach_execFresh (fun a ha s s' hs => ⟨hs, ?_⟩) (calm_succeeds _) he,
      live_root hroot, hopen, hread, fun h => ?_⟩
    · rw [List.mem_singleton.mp ha]
      exact ⟨by decide +kernel, calm_succeeds _⟩
    · have hentry : (entries q.2.dt rootFb)[2]? = some (entries q.2.dt rootFb)[2] :=
        List.getElem?_eq_getElem (by omega)
      have hname : (entries q.2.dt rootFb)[2].name = List.replicate 256 letterA := by
        have hhead := congrArg (fun l : List CStr => l[2]?) hnames
        rw [List.getElem?_map, hentry] at hhead
        exact Option.some.inj hhead
      obtain ⟨w', hwhole⟩ := h.entry _ hentry
      rw [hread] at hwhole
      have hgiven := congrArg Prod.fst (Option.some.inj
        (Prod.mk.inj (Prod.mk.inj (Except.ok.inj hwhole)).1).2)
      rw [hname] at hgiven
      have hshort : (List.replicate 255 letterA.val).length
          = (chars (List.replicate 256 letterA)).length := congrArg List.length hgiven
      rw [chars, List.length_map, List.length_replicate, List.length_replicate] at hshort
      cases hshort

end Sbpfs.Cfs.DirectoryListing
