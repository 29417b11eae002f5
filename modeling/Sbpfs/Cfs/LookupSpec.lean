import Sbpfs.Cfs.DiskStore
import Sbpfs.Spec.Components

/-!
# Reading directories and walking paths

Under `Store` the searches of the source are the searches of the file tree, and leave
the image as it is.
-/
namespace Sbpfs.Cfs.LookupSpec

open Sbpfs.Lib.Program Sbpfs.Lib.Memory Sbpfs.Lib.Chain
open Sbpfs.Cfs.Layout Sbpfs.Cfs.Rules Sbpfs.Cfs.FatSpec Sbpfs.Cfs.File Sbpfs.Cfs.FileSpec
open Sbpfs.Cfs.Lookup Sbpfs.Cfs.Image Sbpfs.Cfs.DiskStore Sbpfs.Spec.FileTree Sbpfs.Spec.Resolve
open Sbpfs.Spec.Components (components splitFirst_none splitFirst_some)

variable {fs : Fs} {chain : Nat → List Nat} {H : Prop}

/-- Nothing but allocations happened. -/
structure Same (w w' : World) : Prop where
  dt : w'.dt = w.dt
  ipIndex : w'.ipIndex = w.ipIndex
  later : Later w.env w'.env

theorem Same.refl (w : World) : Same w w := ⟨rfl, rfl, Later.refl _⟩

theorem Same.trans {w w' w'' : World} (h : Same w w') (h' : Same w' w'') : Same w w'' :=
  ⟨h'.dt.trans h.dt, h'.ipIndex.trans h.ipIndex, h.later.trans h'.later⟩

theorem Same.pop (w : World) (s : AllocSite) : Same w { w with env := w.env.pop s } :=
  ⟨rfl, rfl, Later.pop _ _⟩

/-- `n` allocations at `s` happened, and nothing else; all of them succeeded. -/
structure Took (s : AllocSite) (n : Nat) (w w' : World) : Prop where
  world : w' = { w with env := Env.skip w.env s n }
  gives : Env.Gives w.env s n

section Took

variable {s t : AllocSite} {m n : Nat} {w w₁ w₂ : World}

theorem Took.same (h : Took s n w w₁) : Same w w₁ := by
  rw [h.world]
  exact ⟨rfl, rfl, Later.skip _ _ _⟩

theorem Took.none (s : AllocSite) (w : World) : Took s 0 w w :=
  ⟨by rw [Env.skip_zero], fun _ hk => absurd hk (Nat.not_lt_zero _)⟩

theorem Took.one (h : w.env.heap s 0 ≠ Option.none) :
    Took s 1 w { w with env := w.env.pop s } := ⟨rfl, Env.gives_one.mpr h⟩

theorem Took.trans (h : Took s m w w₁) (h' : Took s n w₁ w₂) : Took s (m + n) w w₂ := by
  obtain ⟨rfl, hm⟩ := h
  obtain ⟨rfl, hn⟩ := h'
  exact ⟨by rw [Env.skip_skip], Env.gives_add.mpr ⟨hm, hn⟩⟩

/-- The outcomes at other places are still to come. -/
theorem Took.other (h : Took s n w w₁) (hne : t ≠ s) : w₁.env.heap t = w.env.heap t := by
  rw [h.world]
  exact Env.skip_other hne n

end Took

/-- Some allocation of the call returns NULL. -/
def OutOfMemory (e : Env) : Prop := ∃ s, ¬ Env.Succeeds e s

theorem OutOfMemory.later {e e' : Env} (h : OutOfMemory e') (hl : Later e e') : OutOfMemory e := by
  obtain ⟨s, hs⟩ := h
  exact ⟨s, fun h => hs (h.later hl)⟩

theorem outOfMemory_of_none {e : Env} {s : AllocSite} (h : e.heap s 0 = none) : OutOfMemory e :=
  ⟨s, fun hs => hs 0 h⟩

/-- `find_entry_by_name` finds the first entry of that name and no byte outside. -/
theorem wp_findEntryFrom {img : Bytes} {n : Nat} {ents : List Ent} {name : CStr} {w : World}
    (hd : DirImage img n ents) (k i : Nat) (hk : k + i = ents.length) :
    wpOr H (findEntryFrom img name k i)
      (fun r w' => w' = w ∧
        r = ((ents.drop i).findIdx? fun e => e.name = name).map (· + i)) w := by
  induction k generalizing i with
  | zero =>
    have hi : i = ents.length := by omega
    subst hi
    rw [findEntryFrom, if_pos (by rw [hd.strbase])]
    simp
  | succ k ih =>
    have hi : i < ents.length := by omega
    have hne : ¬ entrySize * i = metaStrbase img := by
      rw [hd.strbase]
      simp only [entrySize]
      omega
    obtain ⟨e, he⟩ : ∃ e, ents[i]? = some e := ⟨_, List.getElem?_eq_getElem hi⟩
    have hent := hd.entry i e he
    have hdrop : ents.drop i = e :: ents.drop (i + 1) := by
      rw [List.drop_eq_getElem_cons hi, (List.getElem?_eq_some_iff.mp he).2]
    have hpool : metaSize + metaStrbase img = 64 + 16 * ents.length := by
      rw [hd.strbase]
    rw [findEntryFrom, if_neg hne, hpool, hdrop, List.findIdx?_cons]
    by_cases hname : e.name = name
    · subst hname
      rw [if_pos hent.name]
      simp
    · have hstr : ¬ strEq img (64 + 16 * ents.length + entryName img (entryOff i)) name = true :=
        fun hs => hname (strEq_unique hent.name hs)
      rw [if_neg hstr]
      refine wp_mono (ih (i + 1) (by omega)) ?_
      rintro r w' ⟨rfl, rfl⟩
      refine ⟨rfl, ?_⟩
      simp only [hname, decide_false, Bool.false_eq_true, if_false, Option.map_map]
      refine congrArg (fun f => Option.map f _) (funext fun j => ?_)
      simp only [Function.comp_apply]
      omega

theorem wp_findEntryByName {img : Bytes} {n : Nat} {ents : List Ent} {name : CStr} {w : World}
    (hd : DirImage img n ents) :
    wpOr H (findEntryByName img name)
      (fun r w' => w' = w ∧ r = ents.findIdx? fun e => e.name = name) w := by
  unfold findEntryByName
  have hlen : metaStrbase img / entrySize = ents.length := by
    rw [hd.strbase]
    simp
  rw [hlen]
  refine wp_mono (wp_findEntryFrom hd ents.length 0 (by omega)) ?_
  rintro r w' ⟨rfl, rfl⟩
  simp

section Read

variable {w : World} {fb : Nat} {o : Obj} {cs : List Nat}

theorem wp_readObj (hs : Sized w.dt) (h : ObjAt w.dt fb o cs) {b : Buf}
    (hb : 512 * cs.length ≤ b.size) (hH : H ∨ Ample w.env) :
    wpOr H (doReadfile fb b)
      (fun b' w' => w' = w ∧ b'.size = b.size ∧ Holds b'.bytes cs.length fb o ∧
        Agree b'.bytes (imageOf w.dt.data cs) 0 (512 * cs.length)) w := by
  have hle := h.length_le hs
  have hlt := hs.fatNum_lt
  have hpos := h.length_pos
  have hholds := h.holds
  obtain ⟨rest, rfl⟩ := h.cons
  refine wp_mono (wp_doReadfile hs h.linked h.lt hb (by omega)
    (hH.imp_right fun hm => (show _ < 2 ^ 23 by omega).trans hm.fuel)) ?_
  rintro b' w' ⟨rfl, hsize, hagree⟩
  exact ⟨rfl, hsize, hholds.congr hagree hholds.extent_le (by omega), hagree⟩

end Read

/-- The outcome of a lookup against the entry that the path names. -/
def LookupPost (e? : Option Ent) (env : Env) (r : Except Int FileEntry) : Prop :=
  (r = .error (-9) ∧ OutOfMemory env) ∨
    match e? with
    | none => r = .error 1
    | some e => ∃ p, r = .ok p ∧ p.fb = e.fb ∧ p.type = e.type

theorem LookupPost.later {e? : Option Ent} {env env' : Env} {r : Except Int FileEntry}
    (h : LookupPost e? env' r) (hl : Later env env') : LookupPost e? env r :=
  h.imp_left fun hr => ⟨hr.1, hr.2.later hl⟩

/-- `p` is what the disk has for the entry `e` of the directory `d`. -/
def OnDisk (dt : Dtree) (fs : Fs) (chain : Nat → List Nat) (d : Nat) (e : Ent) (p : FileEntry) :
    Prop :=
  ∃ i, (fs.ents d)[i]? = some e ∧ p = entryAt (imageOf dt.data (chain d)) (entryOff i)

theorem entryAt_agree {b b' : Bytes} {n off : Nat} (h : Agree b b' 0 n) (hoff : off + 16 ≤ n) :
    entryAt b off = entryAt b' off := by
  have hname : entryName b off = entryName b' off :=
    getLE_congr fun j _ hj => h j (Nat.zero_le _) (by omega)
  have hfb : entryFb b off = entryFb b' off :=
    getLE_congr fun j _ hj => h j (Nat.zero_le _) (by omega)
  have htype : entryType b off = entryType b' off := h _ (Nat.zero_le _) (by omega)
  rw [entryAt, entryAt, hname, hfb, htype]

/-- The fields and the name of what the disk has for an entry. -/
theorem OnDisk.fields {dt : Dtree} {d : Nat} {e : Ent} {p : FileEntry}
    (h : OnDisk dt fs chain d e p) (hst : Store dt fs chain) :
    p.fb = e.fb ∧ p.type = e.type ∧ strEq (imageOf dt.data (chain d))
      (metaSize + metaStrbase (imageOf dt.data (chain d)) + p.name) e.name = true := by
  obtain ⟨i, hi, rfl⟩ := h
  have hmem : e ∈ fs.ents d := List.mem_of_getElem? hi
  unfold Fs.ents at hi hmem
  split at hi
  · rename_i uid flags parent kids hd
    have hdir : DirImage (imageOf dt.data (chain d)) (chain d).length (table d parent kids) :=
      (hst.obj d _ hd).holds.node
    have hent := hdir.entry i e hi
    refine ⟨hent.fb, hent.type, ?_⟩
    rw [hdir.strbase]
    exact hent.name
  · cases hi

/-- The outcome of a lookup against the entry and its directory that the path names. -/
def LookupAt (dt : Dtree) (fs : Fs) (chain : Nat → List Nat) (q : Option (Nat × Ent)) (env : Env)
    (r : Except Int FileEntry) : Prop :=
  (r = .error (-9) ∧ OutOfMemory env) ∨
    match q with
    | none => r = .error 1
    | some (d, e) => ∃ p, r = .ok p ∧ OnDisk dt fs chain d e p

theorem LookupAt.later {dt : Dtree} {q : Option (Nat × Ent)} {env env' : Env}
    {r : Except Int FileEntry} (h : LookupAt dt fs chain q env' r) (hl : Later env env') :
    LookupAt dt fs chain q env r :=
  h.imp_left fun hr => ⟨hr.1, hr.2.later hl⟩

theorem LookupAt.post {dt : Dtree} {q : Option (Nat × Ent)} {env : Env}
    {r : Except Int FileEntry} (h : LookupAt dt fs chain q env r) (hst : Store dt fs chain) :
    LookupPost (q.map Prod.snd) env r := by
  refine h.imp_right fun hr => ?_
  cases q with
  | none => exact hr
  | some q =>
    obtain ⟨p, hp, hon⟩ := hr
    have hfields := hon.fields hst
    exact ⟨p, hp, hfields.1, hfields.2.1⟩

theorem splitFirst_length {path next rest : CStr} (h : splitFirst path = some (next, rest)) :
    rest.length < path.length := by
  induction path generalizing next with
  | nil => cases h
  | cons c cs ih =>
    rw [splitFirst] at h
    split at h
    · cases h
      simp
    · rw [Option.map_eq_some_iff] at h
      obtain ⟨q, hq, he⟩ := h
      obtain ⟨next', rest'⟩ := q
      cases he
      exact (ih hq).trans (Nat.lt_succ_self _)

/-- A search that takes `k` tables to find something has the memory for them and finds it, or
fails. -/
def Reads (k : Nat) (w : World) (r : Except Int FileEntry) (w' : World) : Prop :=
  (r = .error (-9) ∧ ¬ Env.Gives w.env .lookup k) ∨ ((∃ p, r = .ok p) ∧ Took .lookup k w w')

theorem Reads.succ {k : Nat} {w w₁ w' : World} {r : Except Int FileEntry}
    (h : Reads k w₁ r w') (h₁ : Took .lookup 1 w w₁) : Reads (k + 1) w r w' := by
  rcases h with ⟨hr, hno⟩ | ⟨hr, htook⟩
  · refine .inl ⟨hr, fun hall => hno ?_⟩
    rw [Nat.add_comm] at hall
    rw [h₁.world]
    exact (Env.gives_add.mp hall).2
  · refine .inr ⟨hr, ?_⟩
    rw [Nat.add_comm]
    exact h₁.trans htook

theorem wp_cFindEntry {w : World} (hst : Store w.dt fs chain) (ht : Tree fs) {n base : Nat}
    {path : CStr} (hbase : ∃ uid flags p kids, fs base = some ⟨uid, flags, .dir p kids⟩)
    (hH : H ∨ (Ample w.env ∧ path.length < n)) :
    wpOr H (cFindEntry n base path)
      (fun r w' => Same w w' ∧ LookupAt w.dt fs chain (walkAt fs.ents n base path) w.env r ∧
        ((walkAt fs.ents n base path).isSome → Reads (path.splitOn slash).length w r w')) w := by
  induction n generalizing base path w with
  | zero => exact hH.resolve_right fun h => Nat.not_lt_zero _ h.2
  | succ n ih =>
    obtain ⟨uid, flags, p, kids, ho⟩ := hbase
    have hat := hst.obj base _ ho
    have hents : fs.ents base = table base p kids := ents_of_dir ho
    rw [cFindEntry]
    simp only [wp_bind, wp_readSector, hst.sized.sectorOf hat.head_lt, hst.sized.dataSecs,
      wp_malloc, hat.buffer_size hst.sized]
    refine ⟨hat.head_lt, ?_⟩
    cases hm : w.env.heap .lookup 0 with
    | none =>
      refine ⟨Same.pop w _, .inl ⟨rfl, outOfMemory_of_none hm⟩, fun _ => .inl ⟨rfl, fun hall => ?_⟩⟩
      exact hall 0 (List.length_pos_iff.mpr (List.splitOn_ne_nil _ _)) hm
    | some junk =>
      simp only [Option.map_some, wp_bind]
      refine wp_mono (wp_readObj (w := { w with env := w.env.pop .lookup }) hst.sized hat
        (Nat.le_refl _) (hH.imp_right fun h => h.1.later (Later.pop _ _))) ?_
      rintro buf w₁ ⟨rfl, -, hholds, hagree⟩
      have hdir : DirImage buf.bytes (chain base).length (table base p kids) := hholds.node
      have hsame : Same w { w with env := w.env.pop .lookup } := Same.pop w _
      have htook : Took .lookup 1 w { w with env := w.env.pop .lookup } :=
        Took.one (by rw [hm]; exact Option.some_ne_none _)
      -- what the search at one table leaves, whatever the name
      have hfound : ∀ (name : CStr) (i : Nat),
          (table base p kids).findIdx? (fun e => e.name = name) = some i →
          ∃ e, findName (fs.ents base) name = some e ∧
            entryFb buf.bytes (entryOff i) = e.fb ∧ entryType buf.bytes (entryOff i) = e.type ∧
            OnDisk w.dt fs chain base e (entryAt buf.bytes (entryOff i)) := by
        intro name i hi
        have hlt := (List.findIdx?_eq_some_iff_getElem.mp hi).1
        have hget : (table base p kids)[i]? = some ((table base p kids)[i]) :=
          List.getElem?_eq_getElem hlt
        have hinside : entryOff i + 16 ≤ 512 * (chain base).length := by
          have hle := hdir.le
          simp only [entryOff, metaSize, entrySize]
          omega
        refine ⟨(table base p kids)[i], ?_, (hdir.entry i _ hget).fb, (hdir.entry i _ hget).type,
          i, ?_, entryAt_agree hagree hinside⟩
        · rw [hents, findName_eq, hi]
          exact hget
        · rw [hents]
          exact hget
      have habsent : ∀ name : CStr,
          (table base p kids).findIdx? (fun e => e.name = name) = none →
          findName (fs.ents base) name = none := by
        intro name hi
        rw [hents, findName_eq, hi]
        rfl
      cases hsplit : splitFirst path with
      | none =>
        simp only [wp_bind]
        refine wp_mono (wp_findEntryByName hdir) ?_
        rintro r w₂ ⟨rfl, rfl⟩
        rw [walkAt, hsplit]
        cases hi : (table base p kids).findIdx? (fun e => e.name = path) with
        | none =>
          rw [habsent path hi]
          exact ⟨hsame, .inr rfl, fun h => absurd h Bool.false_ne_true⟩
        | some i =>
          obtain ⟨e, he, -, -, hon⟩ := hfound path i hi
          rw [he, splitFirst_none hsplit]
          exact ⟨hsame, .inr ⟨_, rfl, hon⟩, fun _ => .inr ⟨⟨_, rfl⟩, htook⟩⟩
      | some q =>
        obtain ⟨next, rest⟩ := q
        simp only [wp_bind]
        refine wp_mono (wp_findEntryByName hdir) ?_
        rintro r w₂ ⟨rfl, rfl⟩
        rw [walkAt, hsplit]
        cases hi : (table base p kids).findIdx? (fun e => e.name = next) with
        | none =>
          simp only [habsent next hi]
          exact ⟨hsame, .inr rfl, fun h => absurd h Bool.false_ne_true⟩
        | some i =>
          obtain ⟨e, he, hfb, htype, -⟩ := hfound next i hi
          simp only [he, htype, hfb]
          by_cases hdirtype : e.type = S_DIR
          · simp only [hdirtype, if_true]
            obtain ⟨⟨uid', flags', node⟩, ho', htyped⟩ := ht.typed_ents (findName_mem he)
            have hnext : ∃ uid flags p kids, fs e.fb = some ⟨uid, flags, .dir p kids⟩ := by
              rcases htyped with hd | hf
              · cases node with
                | file flen recs => exact absurd hd.2 id
                | dir p' kids' => exact ⟨_, _, _, _, ho'⟩
              · rw [hf.1] at hdirtype
                cases hdirtype
            refine wp_mono (ih (w := { w with env := w.env.pop .lookup }) hst hnext
              (hH.imp_right fun h => ⟨h.1.later (Later.pop _ _),
                (splitFirst_length hsplit).trans_le (Nat.le_of_lt_succ h.2)⟩)) ?_
            rintro r w₃ ⟨hs₃, hpost, hreads⟩
            refine ⟨hsame.trans hs₃, hpost.later hsame.later, fun h => ?_⟩
            rw [splitFirst_some hsplit]
            exact (hreads h).succ htook
          · simp only [if_neg hdirtype]
            exact ⟨hsame, .inr rfl, fun h => absurd h Bool.false_ne_true⟩

/-- How many tables `c_lookup` reads to find what the path names. -/
def tables (path : CStr) : Nat := if walked path = [] then 0 else (components path).length

/-- How many of them the directory of a path takes. -/
def tablesAbove (path : CStr) : Nat :=
  match getFilenameFromPath path with
  | none => 0
  | some (dir, _) => tables dir

theorem wp_cLookup_reads {w : World} (hst : Store w.dt fs chain) (ht : Tree fs) (path : CStr)
    (hH : H ∨ Ample w.env) :
    wpOr H (cLookup path)
      (fun r w' => (Same w w' ∧
        if walked path = [] then r = .ok ⟨0, rootFb, S_DIR⟩
        else LookupAt w.dt fs chain
          (walkAt fs.ents ((walked path).length + 1) rootFb (walked path)) w.env r) ∧
        ((resolve fs.ents path).isSome → Reads (tables path) w r w')) w := by
  have h0 : sectorOf 0 = 0 := sectorOf_lt (by decide)
  have hres : resolve fs.ents path = if walked path = [] then some rootEnt
      else walk fs.ents ((walked path).length + 1) rootFb (walked path) := rfl
  rw [hres]
  unfold cLookup tables components walked
  simp only
  generalize (if path.head? = some slash then path.tail else path) = q
  simp only [wp_bind, wp_readSector, h0, hst.sized.dataSecs, hst.rootEntry]
  refine ⟨hst.usable, ?_⟩
  by_cases hq : q = []
  · simp only [if_pos hq]
    exact ⟨⟨Same.refl w, rfl⟩, fun _ => .inr ⟨⟨_, rfl⟩, Took.none _ _⟩⟩
  · simp only [if_neg hq]
    have hfb : entryFb (w.dt.data 0) 0 = rootFb := congrArg FileEntry.fb hst.rootEntry
    rw [hfb]
    obtain ⟨uid, flags, kids, hr⟩ := ht.root
    refine wp_mono (wp_cFindEntry hst ht ⟨uid, flags, _, kids, hr⟩
      (hH.imp_right fun h => ⟨h, Nat.lt_succ_self _⟩)) ?_
    rintro r w' ⟨hsame, hat, hreads⟩
    refine ⟨⟨hsame, hat⟩, fun h => hreads ?_⟩
    rwa [walk_eq, Option.isSome_map] at h

/-- `c_lookup` finds what the path names, and where, unless memory runs out. -/
theorem wp_cLookup_at {w : World} (hst : Store w.dt fs chain) (ht : Tree fs) (path : CStr)
    (hH : H ∨ Ample w.env) :
    wpOr H (cLookup path)
      (fun r w' => Same w w' ∧
        if walked path = [] then r = .ok ⟨0, rootFb, S_DIR⟩
        else LookupAt w.dt fs chain
          (walkAt fs.ents ((walked path).length + 1) rootFb (walked path)) w.env r) w :=
  wp_mono (wp_cLookup_reads hst ht path hH) fun _ _ h => h.1

/-- `c_lookup` finds what the path names with the memory for its tables. -/
theorem wp_cLookup_took {w : World} (hst : Store w.dt fs chain) (ht : Tree fs) (path : CStr)
    (hH : H ∨ Ample w.env) :
    wpOr H (cLookup path)
      (fun r w' => (Same w w' ∧ LookupPost (resolve fs.ents path) w.env r) ∧
        ((resolve fs.ents path).isSome → Reads (tables path) w r w')) w := by
  refine wp_mono (wp_cLookup_reads hst ht path hH) ?_
  rintro r w' ⟨⟨hsame, hpost⟩, hreads⟩
  refine ⟨⟨hsame, ?_⟩, hreads⟩
  show LookupPost (if walked path = [] then some rootEnt
    else walk fs.ents ((walked path).length + 1) rootFb (walked path)) w.env r
  by_cases hq : walked path = []
  · rw [if_pos hq] at hpost ⊢
    exact .inr ⟨_, hpost, rfl, rfl⟩
  · rw [if_neg hq] at hpost ⊢
    rw [walk_eq]
    exact hpost.post hst

/-- `c_lookup` finds what the path names, unless memory runs out. -/
theorem wp_cLookup {w : World} (hst : Store w.dt fs chain) (ht : Tree fs) (path : CStr)
    (hH : H ∨ Ample w.env) :
    wpOr H (cLookup path)
      (fun r w' => Same w w' ∧ LookupPost (resolve fs.ents path) w.env r) w :=
  wp_mono (wp_cLookup_took hst ht path hH) fun _ _ h => h.1

end Sbpfs.Cfs.LookupSpec
