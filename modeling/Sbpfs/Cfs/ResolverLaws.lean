import Sbpfs.Cfs.EntrySpec
import Sbpfs.Cfs.PathLaws
import Sbpfs.Cfs.NamespaceLaws
import Sbpfs.Spec.Cut

/-!
# Two resolvers

`c_stat`, `c_open`, `c_remove`, `c_rmdir` and `c_mkdir` cut the last name off a path,
`c_opendir`, `c_chmod` and `c_chown` look the whole path up.
-/
namespace Sbpfs.Cfs.ResolverLaws

open Sbpfs.Lib.Program Sbpfs.Lib.Run
open Sbpfs.Cfs.Layout Sbpfs.Cfs.Rules Sbpfs.Cfs.Lookup Sbpfs.Cfs.LookupSpec Sbpfs.Cfs.DiskStore
open Sbpfs.Cfs.ObjectSpec Sbpfs.Cfs.NamespaceSpec Sbpfs.Cfs.Query Sbpfs.Cfs.EntrySpec
open Sbpfs.Cfs.Namespace Sbpfs.Cfs.NamespaceLaws Sbpfs.Cfs.PathLaws Sbpfs.Cfs.Calls
open Sbpfs.Cfs.RunSpec Sbpfs.Cfs.DiskView Sbpfs.Cfs.ChainLaws
open Sbpfs.Cfs.Mkfs (blank)
open Sbpfs.Cfs.Invariants (calm calmly rootPath letterA calm_succeeds rootReading live_of_root)
open Sbpfs.Spec.FileTree Sbpfs.Spec.Resolve Sbpfs.Spec.Components Sbpfs.Spec.Cut

variable {fs : Fs} {path : CStr} {d d' : Nat} {e e' : Ent}

/-! ## Where the names lead -/

/-- The names before and behind the last slash lead to the entry `e` of `d`. -/
def LeadsCut (fs : Fs) (path : CStr) (d : Nat) (e : Ent) : Prop :=
  ∃ names, cut path = some names ∧ Walks fs.ents rootFb names d e

/-- The components of the whole path do. -/
def LeadsAll (fs : Fs) (path : CStr) (d : Nat) (e : Ent) : Prop :=
  Walks fs.ents rootFb (components path) d e

theorem components_ne_nil (path : CStr) : components path ≠ [] := List.splitOn_ne_nil _ _

theorem named_iff (ht : Tree fs) : named fs.ents path = some (d, e) ↔ LeadsCut fs path d e := by
  have hnodup := ents_nodup ht
  unfold named LeadsCut cut
  cases getFilenameFromPath path with
  | none =>
    constructor
    · intro h
      cases h
    · intro h
      obtain ⟨names, hnames, -⟩ := h
      cases hnames
  | some q =>
    obtain ⟨dir, name⟩ := q
    rw [Option.map_some]
    dsimp only
    have hcut : (∃ names, some ((if walked dir = [] then [] else components dir) ++ [name])
        = some names ∧ Walks fs.ents rootFb names d e) ↔
        Walks fs.ents rootFb ((if walked dir = [] then [] else components dir) ++ [name]) d e := by
      constructor
      · intro h
        obtain ⟨names, hnames, hw⟩ := h
        cases hnames
        exact hw
      · intro h
        exact ⟨_, rfl, h⟩
    rw [hcut]
    by_cases hdir : walked dir = []
    · rw [resolve_root hdir, if_pos hdir, List.nil_append, walks_single]
      show (if S_DIR = S_DIR then (findName (fs.ents rootFb) name).map fun k => (rootFb, k)
        else none) = some (d, e) ↔ _
      rw [if_pos rfl, Option.map_eq_some_iff]
      constructor
      · intro h
        obtain ⟨k, hk, heq⟩ := h
        cases heq
        exact ⟨rfl, (findName_iff hnodup).mp hk⟩
      · intro h
        obtain ⟨rfl, hmem⟩ := h
        exact ⟨e, (findName_iff hnodup).mpr hmem, rfl⟩
    · rw [if_neg hdir, walks_snoc (components_ne_nil _)]
      constructor
      · intro h
        cases hr : resolve fs.ents dir with
        | none =>
          rw [hr] at h
          cases h
        | some f =>
          obtain ⟨d', hw⟩ := (resolve_iff hnodup hdir).mp hr
          rw [hr] at h
          dsimp only at h
          by_cases htype : f.type = S_DIR
          · rw [if_pos htype] at h
            obtain ⟨k, hk, heq⟩ := Option.map_eq_some_iff.mp h
            cases heq
            exact ⟨d', f, hw, htype, rfl, (findName_iff hnodup).mp hk⟩
          · rw [if_neg htype] at h
            cases h
      · intro h
        obtain ⟨d', f, hw, htype, rfl, hmem⟩ := h
        rw [(resolve_iff hnodup hdir).mpr ⟨d', hw⟩]
        dsimp only
        rw [if_pos htype, (findName_iff hnodup).mpr hmem]
        rfl

/-- What stands in a table is `.`, `..` or an entry that was made. -/
theorem ents_cases (h : e ∈ fs.ents d) : ∃ uid flags p kids,
    fs d = some ⟨uid, flags, .dir p kids⟩ ∧
      (e = ⟨dotName, d, S_DIR⟩ ∨ e = ⟨dotdotName, p, S_DIR⟩ ∨ e ∈ fs.kids d) := by
  unfold Fs.ents at h
  split at h
  · rename_i uid flags p kids hd
    refine ⟨uid, flags, p, kids, hd, ?_⟩
    rw [kids_of_dir hd]
    rcases List.mem_cons.mp h with he | h
    · exact .inl he
    rcases List.mem_cons.mp h with he | h
    · exact .inr (.inl he)
    · exact .inr (.inr h)
  · cases h

/-- The root's entries besides those that were made name the root. -/
theorem root_cases (ht : Tree fs) (h : e ∈ fs.ents rootFb) :
    e = ⟨dotName, rootFb, S_DIR⟩ ∨ e = ⟨dotdotName, rootFb, S_DIR⟩ ∨ e ∈ fs.kids rootFb := by
  obtain ⟨uid, flags, p, kids, hd, hcase⟩ := ents_cases h
  obtain ⟨uid', flags', kids', hr⟩ := ht.root
  rw [hr] at hd
  cases hd
  exact hcase

/-- An entry without a name was made. -/
theorem nameless_kid (h : e ∈ fs.ents d) (hname : e.name = []) : e ∈ fs.kids d := by
  obtain ⟨uid, flags, p, kids, -, hcase⟩ := ents_cases h
  rcases hcase with rfl | rfl | hkid
  · cases hname
  · cases hname
  · exact hkid

/-- No entry that was made has the name of one that stands in every table. -/
theorem kid_name (ht : Tree fs) (h : e ∈ fs.kids d) : e.name ≠ dotName ∧ e.name ≠ dotdotName := by
  have hnodup := ht.nodup d
  simp only [table, List.map_cons, List.nodup_cons, List.mem_cons, not_or] at hnodup
  obtain ⟨⟨-, hdot⟩, hdotdot, -⟩ := hnodup
  have hmem : e.name ∈ (fs.kids d).map Ent.name := List.mem_map_of_mem h
  exact ⟨fun he => hdot (he ▸ hmem), fun he => hdotdot (he ▸ hmem)⟩

/-- Of the entries of the root and of a directory without a name in it, only `..` have the same
name and the same object. -/
theorem doubled_same (ht : Tree fs) {E : Ent} (he : e ∈ fs.ents rootFb) (hE : E ∈ fs.ents rootFb)
    (hEname : E.name = []) (he' : e' ∈ fs.ents E.fb) (hname : e'.name = e.name)
    (hfb : e.fb = e'.fb) : e.name = dotdotName := by
  have hbelow : E.fb ≠ rootFb := ht.child_ne ⟨E, nameless_kid hE hEname, rfl⟩
  rcases root_cases ht he with rfl | rfl | hkid
  · -- both are `.`
    obtain ⟨uid, flags, p, kids, hd, -⟩ := ents_cases he'
    have hdot : (⟨dotName, E.fb, S_DIR⟩ : Ent) ∈ fs.ents E.fb := by
      rw [ents_of_dir hd]
      exact List.mem_cons_self ..
    have heq := entry_unique (ents_nodup ht) he' hdot hname
    rw [heq] at hfb
    exact absurd hfb.symm hbelow
  · rfl
  · obtain ⟨hdot, hdotdot⟩ := kid_name ht hkid
    obtain ⟨uid, flags, p, kids, -, hcase⟩ := ents_cases he'
    rcases hcase with rfl | rfl | hkid'
    · exact absurd hname.symm hdot
    · exact absurd hname.symm hdotdot
    · exact absurd (ht.unique _ _ e hkid e' hkid' hfb).1.symm hbelow

/-- The path `//..` in a root with a directory without a name. -/
def Upward (fs : Fs) (path : CStr) : Prop :=
  path = slash :: slash :: dotdotName ∧ ∃ e ∈ fs.ents rootFb, e.name = [] ∧ e.type = S_DIR

/-- A path with another character is not trimmed to nothing. -/
theorem trimmed_ne_nil (hchar : ∃ c ∈ path, c ≠ slash) : trimmed path ≠ [] := by
  intro hnil
  obtain ⟨c, hc, hne⟩ := hchar
  unfold trimmed at hnil
  by_cases hlast : path.getLast? = some slash
  · rw [if_pos hlast] at hnil
    obtain ⟨u, hu⟩ := List.getLast?_eq_some_iff.mp hlast
    rw [hu, List.dropLast_concat] at hnil
    rw [hu, hnil] at hc
    exact hne (List.mem_singleton.mp hc)
  · rw [if_neg hlast] at hnil
    rw [hnil] at hc
    cases hc

/-- Of paths cut in two ways only `//..` can lead to one object. -/
theorem leads_same (ht : Tree fs) (hchar : ∃ c ∈ path, c ≠ slash) (hcut : LeadsCut fs path d e)
    (hall : LeadsAll fs path d' e') (hfb : e.fb = e'.fb) : Plain path ∨ Upward fs path := by
  have hnodup := ents_nodup ht
  obtain ⟨names, hnames, hwalk⟩ := hcut
  by_cases hlast : path.getLast? = some slash
  · -- the whole path goes on to an entry without a name
    obtain ⟨hpath, hcomp⟩ := trimmed_closed hlast (trimmed_ne_nil hchar)
    unfold LeadsAll at hall
    rw [hcomp] at hall
    obtain ⟨d₁, f, hf, htype, rfl, hmem, hname⟩ := (walks_snoc (components_ne_nil _)).mp hall
    have hchild : fs.Child f.fb e'.fb := ⟨e', nameless_kid hmem hname, rfl⟩
    cases cuts path with
    | free hfree hnone =>
      rw [hnames] at hnone
      cases hnone
    | whole hslash hsingle hwhole =>
      rw [hnames] at hwhole
      cases hwhole
      obtain ⟨-, rfl⟩ := walks_unique hnodup hwalk hf
      exact absurd hfb.symm (ht.child_ne hchild)
    | @doubled name hfree htrim hsome hboth =>
      rw [hnames] at hsome
      cases hsome
      obtain ⟨-, he, hename⟩ := walks_single.mp hwalk
      rcases root_cases ht he with rfl | rfl | hkid
      · rw [← hfb] at hchild
        exact absurd hchild (ht.top _)
      · rw [← hfb] at hchild
        exact absurd hchild (ht.top _)
      · obtain ⟨-, rfl⟩ := ht.unique _ _ e hkid e' (nameless_kid hmem hname) hfb
        rw [← hename, hname] at htrim
        obtain ⟨c, hc, hne⟩ := hchar
        rw [hpath, htrim] at hc
        simp only [List.cons_append, List.nil_append, List.mem_cons, List.not_mem_nil, or_false,
          or_self] at hc
        exact absurd hc hne
  · have htrim := trimmed_open hlast
    cases cuts path with
    | free hfree hnone =>
      rw [hnames] at hnone
      cases hnone
    | whole hslash hsingle hwhole =>
      rw [htrim] at hslash hsingle
      exact .inl ⟨hslash, hlast, hsingle⟩
    | @doubled name hfree hpath hsome hboth =>
      rw [hnames] at hsome
      cases hsome
      rw [htrim] at hpath hboth
      unfold LeadsAll at hall
      rw [hboth] at hall
      obtain ⟨-, he, hename⟩ := walks_single.mp hwalk
      obtain ⟨E, hE, hEname, hEtype, hrest⟩ := (walks_cons (List.cons_ne_nil _ _)).mp hall
      obtain ⟨rfl, he', hename'⟩ := walks_single.mp hrest
      refine .inr ⟨?_, E, hE, hEname, hEtype⟩
      rw [hpath, ← hename, doubled_same ht he hE hEname he' (hename'.trans hename.symm) hfb]

/-- There both cuts lead to the root. -/
theorem upward_leads (ht : Tree fs) (h : Upward fs path) :
    LeadsCut fs path rootFb ⟨dotdotName, rootFb, S_DIR⟩ ∧
      ∃ d, LeadsAll fs path d ⟨dotdotName, rootFb, S_DIR⟩ := by
  obtain ⟨rfl, E, hE, hname, htype⟩ := h
  obtain ⟨uid, flags, kids, hr⟩ := ht.root
  constructor
  · refine ⟨[dotdotName], by decide, walks_single.mpr ⟨rfl, ?_, rfl⟩⟩
    rw [ents_of_dir hr]
    exact List.mem_cons_of_mem _ (List.mem_cons_self ..)
  · obtain ⟨uid', flags', p, kids', hd⟩ := dir_of_typed (ht.typed_ents hE) htype
    have hkid := nameless_kid hE hname
    have hbelow : E.fb ≠ rootFb := ht.child_ne ⟨E, hkid, rfl⟩
    -- the parent of the directory is the root
    obtain ⟨E', hkid', hfb⟩ := ht.up E.fb _ _ p kids' hd hbelow
    obtain ⟨rfl, -⟩ := ht.unique _ _ E' hkid' E hkid hfb
    refine ⟨E.fb, ?_⟩
    show Walks fs.ents rootFb [[], dotdotName] E.fb _
    refine (walks_cons (List.cons_ne_nil _ _)).mpr ⟨E, hE, hname, htype, ?_⟩
    refine walks_single.mpr ⟨rfl, ?_, rfl⟩
    rw [ents_of_dir hd]
    exact List.mem_cons_of_mem _ (List.mem_cons_self ..)

/-- The path leads nowhere in either way. -/
def Astray (fs : Fs) (path : CStr) : Prop :=
  (∀ d e, ¬ LeadsCut fs path d e) ∧ ∀ d e, ¬ LeadsAll fs path d e

theorem plain_leads (h : Plain path) : LeadsCut fs path d e ↔ LeadsAll fs path d e := by
  unfold LeadsCut LeadsAll
  rw [h.cut_eq]
  constructor
  · intro hc
    obtain ⟨names, hnames, hw⟩ := hc
    cases hnames
    exact hw
  · intro hw
    exact ⟨_, rfl, hw⟩

/-! ## The two functions -/

section Programs

variable {chain : Nat → List Nat} {w : World}

/-- Both resolvers fail, or both find entries of one object and one type. -/
def SameEntry (a b : Except Int FileEntry) : Prop :=
  ((∃ c, a = .error c) ∧ ∃ c, b = .error c) ∨
    ∃ p q, a = .ok p ∧ b = .ok q ∧ p.fb = q.fb ∧ p.type = q.type

/-- What `findOfile` finds. -/
theorem findOfile_leads (hst : Store w.dt fs chain) (ht : Tree fs) (hmem : Ample w.env)
    (path : CStr) :
    ∃ r w', findOfile path w = .ok (r, w') ∧ Same w w' ∧
      (((∃ c, r = .error c) ∧ ∀ d e, ¬ LeadsCut fs path d e) ∨
        ∃ p d e, r = .ok p ∧ LeadsCut fs path d e ∧ OnDisk w.dt fs chain d e p) := by
  obtain ⟨r, w', hrun, hsame, hfound⟩ := findOfile_run hst ht hmem path
  refine ⟨r, w', hrun, hsame, ?_⟩
  cases hq : named fs.ents path with
  | none =>
    rw [hq] at hfound
    refine .inl ⟨⟨_, hfound⟩, fun d e h => ?_⟩
    have hsome := (named_iff ht).mpr h
    rw [hq] at hsome
    cases hsome
  | some q =>
    obtain ⟨d, e⟩ := q
    rw [hq] at hfound
    obtain ⟨p, hp, hon⟩ := hfound
    exact .inr ⟨p, d, e, hp, (named_iff ht).mp hq, hon⟩

/-- What `c_lookup` finds. -/
theorem cLookup_leads (hst : Store w.dt fs chain) (ht : Tree fs) (hmem : Ample w.env)
    (hpath : walked path ≠ []) :
    ∃ r w', cLookup path w = .ok (r, w') ∧ Same w w' ∧
      (((∃ c, r = .error c) ∧ ∀ d e, ¬ LeadsAll fs path d e) ∨
        ∃ p d e, r = .ok p ∧ LeadsAll fs path d e ∧ OnDisk w.dt fs chain d e p) := by
  obtain ⟨r, w', hrun, hsame, hfound⟩ := cLookup_run hst ht hmem hpath
  have hat := fun d e => @walkAt_iff fs.ents rootFb d e (walked path) (ents_nodup ht) _
    (Nat.lt_succ_self _)
  refine ⟨r, w', hrun, hsame, ?_⟩
  cases hq : walkAt fs.ents ((walked path).length + 1) rootFb (walked path) with
  | none =>
    rw [hq] at hfound
    refine .inl ⟨⟨_, hfound⟩, fun d e h => ?_⟩
    have hsome := (hat d e).mpr h
    rw [hq] at hsome
    cases hsome
  | some q =>
    obtain ⟨d, e⟩ := q
    rw [hq] at hfound
    obtain ⟨p, hp, hon⟩ := hfound
    exact .inr ⟨p, d, e, hp, (hat d e).mp hq, hon⟩

theorem walked_ne_nil (hchar : ∃ c ∈ path, c ≠ slash) : walked path ≠ [] := by
  intro h
  obtain ⟨c, hc, hne⟩ := hchar
  rcases walked_nil h with rfl | rfl
  · cases hc
  · exact hne (List.mem_singleton.mp hc)

/-- The resolvers agree on plain paths, where a path leads nowhere, and on `//..`. -/
theorem agree_iff (hst : Store w.dt fs chain) (ht : Tree fs) (hmem : Ample w.env)
    (hchar : ∃ c ∈ path, c ≠ slash) :
    ∃ a b w₁ w₂, findOfile path w = .ok (a, w₁) ∧ cLookup path w = .ok (b, w₂) ∧
      (SameEntry a b ↔ Plain path ∨ Astray fs path ∨ Upward fs path) ∧
      (Plain path → ∀ p, a = .ok p ↔ b = .ok p) := by
  have hnodup := ents_nodup ht
  obtain ⟨a, w₁, hruna, -, ha⟩ := findOfile_leads hst ht hmem path
  obtain ⟨b, w₂, hrunb, -, hb⟩ := cLookup_leads hst ht hmem (walked_ne_nil hchar)
  refine ⟨a, b, w₁, w₂, hruna, hrunb, ?_⟩
  rcases ha with ha | ha
  · obtain ⟨⟨c, rfl⟩, hcut⟩ := ha
    rcases hb with hb | hb
    · obtain ⟨⟨c', rfl⟩, hall⟩ := hb
      refine ⟨⟨fun _ => .inr (.inl ⟨hcut, hall⟩), fun _ => .inl ⟨⟨_, rfl⟩, _, rfl⟩⟩, fun _ p => ?_⟩
      constructor <;> intro h <;> cases h
    · obtain ⟨q, d, e, rfl, hall, -⟩ := hb
      refine ⟨⟨fun h => ?_, fun h => ?_⟩, fun hplain => ?_⟩
      · rcases h with ⟨-, c', h⟩ | ⟨p, q', h, -⟩ <;> cases h
      · rcases h with hplain | hastray | hup
        · exact absurd ((plain_leads hplain).mpr hall) (hcut d e)
        · exact absurd hall (hastray.2 d e)
        · exact absurd (upward_leads ht hup).1 (hcut _ _)
      · exact absurd ((plain_leads hplain).mpr hall) (hcut d e)
  · obtain ⟨p, d, e, rfl, hcut, hon⟩ := ha
    obtain ⟨hfb, htype, -⟩ := hon.fields hst
    rcases hb with hb | hb
    · obtain ⟨⟨c', rfl⟩, hall⟩ := hb
      refine ⟨⟨fun h => ?_, fun h => ?_⟩, fun hplain => ?_⟩
      · rcases h with ⟨⟨c, h⟩, -⟩ | ⟨p', q', -, h, -⟩ <;> cases h
      · rcases h with hplain | hastray | hup
        · exact absurd ((plain_leads hplain).mp hcut) (hall d e)
        · exact absurd hcut (hastray.1 d e)
        · obtain ⟨d', h'⟩ := (upward_leads ht hup).2
          exact absurd h' (hall _ _)
      · exact absurd ((plain_leads hplain).mp hcut) (hall d e)
    · obtain ⟨q, d', e', rfl, hall, hon'⟩ := hb
      obtain ⟨hfb', htype', -⟩ := hon'.fields hst
      refine ⟨⟨fun h => ?_, fun h => ?_⟩, fun hplain p' => ?_⟩
      · rcases h with ⟨⟨c, h⟩, -⟩ | ⟨p', q', hp, hq, hsame, -⟩
        · cases h
        · cases hp
          cases hq
          have hobj : e.fb = e'.fb := hfb.symm.trans (hsame.trans hfb')
          exact (leads_same ht hchar hcut hall hobj).imp_right .inr
      · rcases h with hplain | hastray | hup
        · obtain ⟨rfl, rfl⟩ := walks_unique hnodup ((plain_leads hplain).mp hcut) hall
          exact .inr ⟨p, q, rfl, rfl, hfb.trans hfb'.symm, htype.trans htype'.symm⟩
        · exact absurd hcut (hastray.1 d e)
        · obtain ⟨hcut', d₂, hall'⟩ := upward_leads ht hup
          obtain ⟨names, hnames, hwalk⟩ := hcut
          obtain ⟨names', hnames', hwalk'⟩ := hcut'
          rw [hnames] at hnames'
          cases hnames'
          obtain ⟨-, rfl⟩ := walks_unique hnodup hwalk hwalk'
          obtain ⟨-, rfl⟩ := walks_unique hnodup hall hall'
          exact .inr ⟨p, q, rfl, rfl, hfb.trans hfb'.symm, htype.trans htype'.symm⟩
      · obtain ⟨rfl, rfl⟩ := walks_unique hnodup ((plain_leads hplain).mp hcut) hall
        rw [OnDisk.unique ht hon hon']

/-! ## A directory just made -/

/-- What `c_opendir` does with an entry that `c_lookup` has found. -/
theorem cOpendir_found (hst : Store w.dt fs chain) {w₁ : World} {p : FileEntry} {o : Obj}
    (hrun : cLookup path w = .ok (.ok p, w₁)) (hsame : Same w w₁) (ho : fs p.fb = some o)
    (reader : UInt32) (k : Nat) :
    ∃ j, cOpendir path reader k w
      = .ok ((if perm reader o R = 0 then -4 else (p.fb : Int), j), w₁) ∧
      (perm reader o R ≠ 0 → j = metaStrbase (w.dt.data p.fb) / entrySize) := by
  have hat := hst.obj _ o ho
  have hsec : sectorOf p.fb = p.fb := hst.sized.sectorOf hat.head_lt
  have hlt : p.fb < 2 ^ 31 := by
    have h1 := hat.head_lt
    have h2 := hst.sized.fatNum_lt
    omega
  obtain ⟨b, w₂, hread, rfl, rfl⟩ := wp_returns (m := readSector p.fb)
    (Q := fun b w' => b = w.dt.data p.fb ∧ w' = w₁) (s := w₁) (by
      rw [wp_readSector, hsec, hsame.dt, hst.sized.dataSecs]
      exact ⟨hat.head_lt, rfl, rfl⟩)
  unfold cOpendir
  rw [bind_run hrun]
  dsimp only
  rw [bind_run hread, header_perm hat]
  by_cases hperm : perm reader o R = 0
  · rw [if_pos hperm, if_pos hperm]
    exact ⟨k, rfl, fun h => absurd hperm h⟩
  · rw [if_neg hperm, if_neg hperm, s32_of_lt hlt]
    exact ⟨_, rfl, fun _ => rfl⟩

/-- Everybody may read a directory just made. -/
theorem newDir_readable (reader uid : UInt32) (d : Nat) : perm reader (newDir uid d) R ≠ 0 := by
  unfold perm newDir
  dsimp only
  by_cases hown : (if reader.toNat = 0 then uid.toNat else reader.toNat) = uid.toNat
  · rw [if_pos ⟨hown, rfl⟩]
    decide
  · rw [if_neg fun h => hown h.1, if_neg fun h => hown h.1, if_pos ⟨hown, rfl⟩]
    decide

/-- The name of a target is the one behind the cut. -/
theorem target_filename {v : View} {name : CStr} {bad notDir : Int}
    (h : target v path bad notDir = .ok (d, name)) :
    ∃ dir, getFilenameFromPath path = some (dir, name) := by
  unfold target at h
  cases hf : getFilenameFromPath path with
  | none =>
    rw [hf] at h
    cases h
  | some q =>
    obtain ⟨dir, name'⟩ := q
    rw [hf] at h
    dsimp only at h
    split at h
    · cases h
    · split at h
      · cases h
        exact ⟨dir, rfl⟩
      · cases h

theorem mkdirPlan_target {v : View} {name : CStr} {uid : UInt32}
    (h : mkdirPlan v path uid = .ok (d, name)) : target v path 1 2 = .ok (d, name) := by
  unfold mkdirPlan at h
  cases ht : target v path 1 2 with
  | error c =>
    rw [ht] at h
    cases h
  | ok q =>
    obtain ⟨d', name'⟩ := q
    rw [ht] at h
    dsimp only at h
    split at h
    · cases h
    · split at h
      · cases h
      · cases h
        rfl

theorem openPlan_target {v : View} {name : CStr} {uid : UInt32} {f : Option Ent}
    (h : openPlan v path uid = .ok (d, name, f)) : target v path (-1) (-1) = .ok (d, name) := by
  unfold openPlan at h
  cases ht : target v path (-1) (-1) with
  | error c =>
    rw [ht] at h
    cases h
  | ok q =>
    obtain ⟨d', name'⟩ := q
    rw [ht] at h
    dsimp only at h
    split at h
    · cases h
    · split at h
      · cases h
        rfl
      · split at h
        · cases h
        · cases h
          rfl

/-- Tables only grow when an object is linked. -/
theorem ents_link {od o : Obj} {p : Nat} {kids : List Ent}
    (hl : Linkable fs d od p kids e o) (n : Nat) :
    fs.ents n ⊆ (link fs d od p kids e o).ents n := by
  intro f hf
  obtain ⟨uid, flags, q, kids', hn, -⟩ := ents_cases hf
  by_cases hd : n = d
  · subst hd
    obtain ⟨uid', flags', node⟩ := od
    have hdir := hl.dir
    rw [hn] at hdir
    cases hdir
    cases hl.node
    rw [ents_of_dir hn] at hf
    rw [ents_of_dir (link_dir ..)]
    exact List.mem_append_left _ hf
  · have hne : n ≠ e.fb := by
      intro he
      have hfresh := hl.fresh
      rw [← he, hn] at hfresh
      cases hfresh
    unfold Fs.ents
    rw [link_ne hd hne]
    exact hf

/-- The path of a new entry leads to it in the tree with it. -/
theorem leads_new {od o : Obj} {p : Nat} {kids : List Ent} {bad notDir : Int}
    (ht : Tree fs) (htarget : target (view fs) path bad notDir = .ok (d, e.name))
    (hl : Linkable fs d od p kids e o) : LeadsCut (link fs d od p kids e o) path d e := by
  have hmem : e ∈ (link fs d od p kids e o).ents d := by
    rw [ents_of_dir (link_dir ..)]
    exact List.mem_append_right (table d p kids) (List.mem_singleton_self e)
  unfold target at htarget
  unfold LeadsCut cut
  cases hf : getFilenameFromPath path with
  | none =>
    rw [hf] at htarget
    cases htarget
  | some q =>
    obtain ⟨dir, name⟩ := q
    rw [hf] at htarget
    have hview : (view fs).ents = fs.ents := rfl
    dsimp only at htarget
    rw [hview] at htarget
    refine ⟨_, rfl, ?_⟩
    dsimp only
    by_cases hdir : walked dir = []
    · rw [resolve_root hdir] at htarget
      dsimp only [rootEnt] at htarget
      rw [if_pos rfl] at htarget
      cases htarget
      rw [if_pos hdir]
      exact walks_single.mpr ⟨rfl, hmem, rfl⟩
    · rw [if_neg hdir]
      cases hr : resolve fs.ents dir with
      | none =>
        rw [hr] at htarget
        cases htarget
      | some f =>
        obtain ⟨d', hw⟩ := (resolve_iff (ents_nodup ht) hdir).mp hr
        rw [hr] at htarget
        dsimp only at htarget
        by_cases htype : f.type = S_DIR
        · rw [if_pos htype] at htarget
          cases htarget
          exact (walks_snoc (components_ne_nil _)).mpr
            ⟨d', f, walks_mono (ents_link hl) hw, htype, rfl, hmem, rfl⟩
        · rw [if_neg htype] at htarget
          cases htarget

/-- What is left behind when `c_mkdir` has made the directory at `fb`: `c_opendir` returns it for
every reader just when the path is plain, and its name is empty just when the path ends in two
slashes. -/
def Made (fs : Fs) (path : CStr) (w' : World) : Prop :=
  ∃ d name fb fs' chain', Store w'.dt fs' chain' ∧ Tree fs' ∧ fs fb = none ∧
    LeadsCut fs' path d ⟨name, fb, S_DIR⟩ ∧ (name = [] ↔ [slash, slash] <:+ path) ∧
    ∀ (reader : UInt32) (k : Nat), ∃ (r : Int) (j : Nat) (w'' : World),
      cOpendir path reader k w' = .ok ((r, j), w'') ∧ (r = fb ↔ Plain path)

theorem cMkdir_made (hst : Store w.dt fs chain) (ht : Tree fs) (hmem : Ample w.env)
    (hchar : ∃ c ∈ path, c ≠ slash) (hlen : path.length < 2 ^ 31) {uid : UInt32} {w' : World}
    (hrun : cMkdir path uid w = .ok (0, w')) : Made fs path w' := by
  obtain ⟨d, name, fb, hplan, u, fl, p, kids, chain', ho, hent⟩ :=
    cMkdir_makes hst ht hmem hlen hrun
  have hl := hent.linkable
  have htarget := mkdirPlan_target hplan
  obtain ⟨dir, hfile⟩ := target_filename htarget
  have hmem' : Ample w'.env := hmem.later hent.later
  have hcut := leads_new ht htarget hl
  refine ⟨d, name, fb, _, chain', hent.store, ht.link hl, hl.fresh, hcut,
    filename_nil_iff hfile, fun reader k => ?_⟩
  obtain ⟨a, w₁, hlook, hsame, ha⟩ :=
    cLookup_leads hent.store (ht.link hl) hmem' (walked_ne_nil hchar)
  rcases ha with ha | ha
  · obtain ⟨⟨c, rfl⟩, hall⟩ := ha
    refine ⟨-1, k, w₁, bind_run hlook _, ?_⟩
    constructor
    · intro h
      omega
    · intro hplain
      exact absurd ((plain_leads hplain).mp hcut) (hall _ _)
  · obtain ⟨q, d', e', rfl, hall, hon⟩ := ha
    obtain ⟨hfb, -, -⟩ := hon.fields hent.store
    obtain ⟨i, hi, -⟩ := hon
    obtain ⟨o', ho', -⟩ := (ht.link hl).typed_ents (List.mem_of_getElem? hi)
    rw [← hfb] at ho'
    obtain ⟨j, hopen, -⟩ := cOpendir_found hent.store hlook hsame ho' reader k
    refine ⟨_, j, w₁, hopen, ?_⟩
    constructor
    · intro h
      have hsame_fb : fb = e'.fb := by
        split at h
        · omega
        · rw [← hfb]
          omega
      rcases leads_same (ht.link hl) hchar hcut hall hsame_fb with hplain | hup
      · exact hplain
      · -- the new entry would have the name `..`
        obtain ⟨names, hnames, hwalk⟩ := hcut
        obtain ⟨names', hnames', hwalk'⟩ := (upward_leads (ht.link hl) hup).1
        rw [hnames] at hnames'
        cases hnames'
        obtain ⟨-, heq⟩ := walks_unique (ents_nodup (ht.link hl)) hwalk hwalk'
        have hkid := (hl.mem_kids (q := d)).mpr (.inr ⟨rfl, rfl⟩)
        exact absurd (congrArg Ent.name heq) (kid_name (ht.link hl) hkid).2
    · intro hplain
      obtain ⟨-, heq⟩ := walks_unique (ents_nodup (ht.link hl))
        ((plain_leads hplain).mp hcut) hall
      rw [hfb, ← heq, hl.link_self] at ho'
      cases ho'
      rw [if_neg (newDir_readable reader uid d), hfb, ← heq]

end Programs

/-! ## New entries -/

/-- The path of a call that may make an entry. -/
def entering : Call → Option CStr
  | .mkdir path _ => some path
  | .openFile path .. => some path
  | _ => none

/-- A new owner or new permissions change no table. -/
theorem kids_update_meta {u u' n : Nat} {fl fl' : UInt8} {node : Node}
    (ho : fs n = some ⟨u, fl, node⟩) (d : Nat) :
    Fs.kids (Function.update fs n (some ⟨u', fl', node⟩)) d = fs.kids d := by
  by_cases hd : d = n
  · subst hd
    unfold Fs.kids
    rw [Function.update_self, ho]
    cases node <;> rfl
  · exact kids_update_ne hd

/-- Nor does a write to a file. -/
theorem kids_update_file {u u' n len len' : Nat} {fl fl' : UInt8} {recs recs' : List Rec}
    (ho : fs n = some ⟨u, fl, .file len recs⟩) (d : Nat) :
    Fs.kids (Function.update fs n (some ⟨u', fl', .file len' recs'⟩)) d = fs.kids d := by
  by_cases hd : d = n
  · subst hd
    unfold Fs.kids
    rw [Function.update_self, ho]
  · exact kids_update_ne hd

/-- An entry that a call adds has the name behind the cut of its path. -/
theorem effect_enters {m m' : Nat} {c : Call} {r : Int} {fs' : Fs} (h : Effect fs m c r fs' m')
    (ht : Tree fs) (hnew : e ∈ fs'.kids d) (hold : e ∉ fs.kids d) :
    ∃ p dir, entering c = some p ∧ getFilenameFromPath p = some (dir, e.name) := by
  cases h with
  | same => exact absurd hnew hold
  | found => exact absurd hnew hold
  | mkdir plan hl =>
    rcases hl.mem_kids.mp hnew with hm | hm
    · exact absurd hm hold
    · obtain ⟨-, rfl⟩ := hm
      obtain ⟨dir, hfile⟩ := target_filename (mkdirPlan_target plan)
      exact ⟨_, dir, rfl, hfile⟩
  | create plan hl =>
    rcases hl.mem_kids.mp hnew with hm | hm
    · exact absurd hm hold
    · obtain ⟨-, rfl⟩ := hm
      obtain ⟨dir, hfile⟩ := target_filename (openPlan_target plan)
      exact ⟨_, dir, rfl, hfile⟩
  | remove plan hu => exact absurd ((hu.mem_kids ht).mp hnew).1 hold
  | rmdir plan hu => exact absurd ((hu.mem_kids ht).mp hnew).1 hold
  | @chmod _ _ _ _ o path_eq obj own =>
    obtain ⟨u, fl, node⟩ := o
    rw [kids_update_meta obj] at hnew
    exact absurd hnew hold
  | @chown _ _ _ o path_eq obj =>
    obtain ⟨u, fl, node⟩ := o
    rw [kids_update_meta obj] at hnew
    exact absurd hnew hold
  | write obj =>
    rw [kids_update_file obj] at hnew
    exact absurd hnew hold

/-- A call that runs on the disk of `w` adds entries without a name just where its path ends in
two slashes. -/
def NamesEntries (fs : Fs) (w : World) : Prop :=
  ∀ (c : Call) (opened : List Nat) (r : Int) (w' : World), c.Allowed ⟨w.dt, w.ipIndex, opened⟩ →
    Sound w.dt c w.env → c.run w = .ok (r, w') →
    ∃ fs' chain', Store w'.dt fs' chain' ∧ Tree fs' ∧ ∀ d e, e ∈ fs'.kids d → e ∉ fs.kids d →
      ∃ p, entering c = some p ∧ (e.name = [] ↔ [slash, slash] <:+ p)

theorem namesEntries {chain : Nat → List Nat} {w : World} (hst : Store w.dt fs chain)
    (ht : Tree fs) (hb : Bounded fs) : NamesEntries fs w := by
  intro c opened r w' hallow hsound hrun
  obtain ⟨fs', chain', hst', heff⟩ :=
    explained (s := ⟨w.dt, w.ipIndex, opened⟩) hst ht hb hallow hsound hrun
  refine ⟨fs', chain', hst', heff.tree ht, fun d e hnew hold => ?_⟩
  obtain ⟨p, dir, hp, hfile⟩ := effect_enters heff ht hnew hold
  exact ⟨p, hp, filename_nil_iff hfile⟩

/-- Where the two resolvers agree, where a directory just made is found by `c_opendir`, and where
an entry without a name is made. -/
theorem resolvers_iff {chain : Nat → List Nat} {w : World} (hst : Store w.dt fs chain)
    (ht : Tree fs) (hb : Bounded fs) (hmem : Ample w.env) (hchar : ∃ c ∈ path, c ≠ slash) :
    (∃ a b w₁ w₂, findOfile path w = .ok (a, w₁) ∧ cLookup path w = .ok (b, w₂) ∧
      (SameEntry a b ↔ Plain path ∨ Astray fs path ∨ Upward fs path) ∧
      (Plain path → ∀ p, a = .ok p ↔ b = .ok p)) ∧
    (path.length < 2 ^ 31 → ∀ uid w', cMkdir path uid w = .ok (0, w') → Made fs path w') ∧
    NamesEntries fs w :=
  ⟨agree_iff hst ht hmem hchar, fun hlen _ _ hrun => cMkdir_made hst ht hmem hchar hlen hrun,
    namesEntries hst ht hb⟩

/-- On a disk just made both resolvers find the root's own entry behind `/.`. -/
theorem resolvers_fresh : ∃ w a b w₁ w₂, FreshWorld w ∧
    findOfile (rootPath dot) w = .ok (a, w₁) ∧ cLookup (rootPath dot) w = .ok (b, w₂) ∧
    SameEntry a b := by
  obtain ⟨w, hw⟩ := exists_freshWorld
  have hplain : Plain (rootPath dot) := by
    refine ⟨by decide, by decide, fun name _ h => ?_⟩
    have hsecond := congrArg (fun p : CStr => p[1]?) h
    exact absurd (Option.some.inj hsecond) (by decide)
  obtain ⟨⟨a, b, w₁, w₂, hruna, hrunb, hiff, -⟩, -, -⟩ := resolvers_iff hw.1.store hw.1.tree
    bounded_fresh hw.2 (show ∃ c ∈ rootPath dot, c ≠ slash from ⟨dot, by decide, by decide⟩)
  exact ⟨w, a, b, w₁, w₂, hw, hruna, hrunb, hiff.mpr (.inl hplain)⟩

/-- The path `/a/`. -/
def closedA : CStr := rootPath letterA ++ [slash]

/-- `c_mkdir` makes a directory by the path `/a/`, which one resolver finds and the other does
not; by the path `/a//` it makes one without a name. -/
theorem resolvers_part :
    (∃ s, Reach Fresh SoundStep s ∧
      (findOfile closedA ⟨s.dt, s.ipIndex, calm⟩).map (fun q => q.1.map FileEntry.fb)
      = .ok (.ok 2) ∧
      (cLookup closedA ⟨s.dt, s.ipIndex, calm⟩).map Prod.fst = .ok (.error 1) ∧
      (cOpendir closedA 0 0 ⟨s.dt, s.ipIndex, calm⟩).map Prod.fst = .ok (-1, 0)) ∧
    ∃ s, Reach Fresh SoundStep s ∧ Live s.dt 2 S_DIR ∧ ∃ e ∈ entries s.dt 2, e.name = [] := by
  constructor
  · have hrun : (execFresh calm blank [calmly (.mkdir closedA 0)]).map (fun q =>
        ((findOfile closedA ⟨q.2.dt, q.2.ipIndex, calm⟩).map (fun p => p.1.map FileEntry.fb),
          (cLookup closedA ⟨q.2.dt, q.2.ipIndex, calm⟩).map Prod.fst,
          (cOpendir closedA 0 0 ⟨q.2.dt, q.2.ipIndex, calm⟩).map Prod.fst))
        = some (.ok (.ok 2), .ok (.error 1), .ok (-1, 0)) := by decide +kernel
    obtain ⟨q, he, hq⟩ := Option.map_eq_some_iff.mp hrun
    simp only [Prod.mk.injEq] at hq
    refine ⟨q.2, reach_execFresh (fun a ha s s' hs => ⟨hs, ?_⟩) (calm_succeeds _) he, hq⟩
    rw [List.mem_singleton.mp ha]
    exact ⟨by decide, calm_succeeds _⟩
  · have hrun : (execFresh calm blank [calmly (.mkdir (rootPath letterA) 0),
        calmly (.mkdir (closedA ++ [slash]) 0)]).map (fun q =>
          (rootReading q.2.dt, (entries q.2.dt 2).any fun e => e.name = []))
        = some ([(1, S_DIR), (1, S_DIR), (1, S_DIR), (2, S_DIR)], true) := by decide +kernel
    obtain ⟨q, he, hq⟩ := Option.map_eq_some_iff.mp hrun
    simp only [Prod.mk.injEq, List.any_eq_true, decide_eq_true_eq] at hq
    refine ⟨q.2, reach_execFresh (fun a ha s s' hs => ⟨hs, ?_⟩) (calm_succeeds _) he,
      live_of_root hq.1 (by decide), hq.2⟩
    simp only [List.mem_cons, List.not_mem_nil, or_false] at ha
    rcases ha with rfl | rfl <;> exact ⟨by decide, calm_succeeds _⟩

end Sbpfs.Cfs.ResolverLaws
