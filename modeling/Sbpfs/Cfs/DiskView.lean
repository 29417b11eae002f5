import Sbpfs.Cfs.NamespaceSpec

/-!
# What a disk image says

The tables of the directories, the live objects and the two global properties of an
image, all read off its bytes: nothing here refers to a file tree. `Store.entries_eq`
and `Store.live_iff` connect the readings to the tree the image stands for.
-/
namespace Sbpfs.Cfs.DiskView

open Sbpfs.Lib.Memory Sbpfs.Lib.Chain
open Sbpfs.Cfs.Layout Sbpfs.Cfs.FatSpec Sbpfs.Cfs.FileSpec Sbpfs.Cfs.Lookup Sbpfs.Cfs.Image
    Sbpfs.Cfs.DiskStore
open Sbpfs.Cfs.ObjectSpec Sbpfs.Cfs.NamespaceSpec
open Sbpfs.Spec.FileTree Sbpfs.Spec.Resolve

/-! ## Reading -/

/-- The slots from `fb` to the end of its chain, at most `n` of them. -/
def chainFrom (fat : Nat → Nat) : Nat → Nat → List Nat
  | 0, _ => []
  | n + 1, fb => if fb = ENDSEC then [] else fb :: chainFrom fat n (fat fb)

def chainOf (dt : Dtree) (fb : Nat) : List Nat := chainFrom dt.fat dt.sb.fatNum fb

/-- The string at `off`, at most `n` characters of it. -/
def cstrAt (b : Bytes) : Nat → Nat → CStr
  | 0, _ => []
  | n + 1, off => if h : b off = 0 then [] else ⟨b off, h⟩ :: cstrAt b n (off + 1)

/-- Entry `i` of the directory image `b`. -/
def entAt (b : Bytes) (i : Nat) : Ent :=
  ⟨cstrAt b (metaStrlen b) (64 + metaStrbase b + entryName b (entryOff i)), entryFb b (entryOff i),
    entryType b (entryOff i)⟩

/-- The table of the directory whose first sector is `d`. -/
def entries (dt : Dtree) (d : Nat) : List Ent :=
  let b := imageOf dt.data (chainOf dt d)
  (List.range (metaStrbase b / 16)).map (entAt b)

/-- What the operations see of an image. -/
def diskView (dt : Dtree) : View where
  ents := entries dt
  may := fun uid fb op => permissionCheck uid (dt.data fb) op

/-- What the root entry, or an entry of a live directory, names. -/
inductive Live (dt : Dtree) : Nat → UInt8 → Prop
  | root : Live dt (entryFb (dt.data 0) 0) (entryType (dt.data 0) 0)
  | entry {d : Nat} {e : Ent} : Live dt d S_DIR → e ∈ entries dt d → Live dt e.fb e.type

/-! ## Global properties -/

/-- The slots `cs` are the chain of the object whose first sector is `fb`. -/
structure IsChain (dt : Dtree) (fb : Nat) (cs : List Nat) : Prop where
  head : cs.head? = some fb
  linked : Linked dt.fat ENDSEC cs
  lt : ∀ c ∈ cs, c < dt.sb.fatNum

structure FatWellFormed (dt : Dtree) : Prop where
  reserved : dt.fat 0 ≠ FREESEC
  rootEntry : entryAt (dt.data 0) 0 = ⟨0, rootFb, S_DIR⟩
  chain : ∀ fb t, Live dt fb t → ∃ cs, IsChain dt fb cs
  disjoint : ∀ fb fb' t t' cs cs', Live dt fb t → Live dt fb' t' → fb ≠ fb' →
    IsChain dt fb cs → IsChain dt fb' cs' → cs.Disjoint cs'
  owned : ∀ i, i ≠ 0 → i < dt.sb.fatNum → dt.fat i ≠ FREESEC →
    ∃! fb, (∃ t, Live dt fb t) ∧ ∃ cs, IsChain dt fb cs ∧ i ∈ cs

/-- Entry `e` of `d` is neither `.` nor `..`. -/
def IsKid (dt : Dtree) (d : Nat) (e : Ent) : Prop :=
  e ∈ entries dt d ∧ e.name ≠ dotName ∧ e.name ≠ dotdotName

/-- The directories `dirs` hang below the root as a tree. -/
structure NamespaceTree (dt : Dtree) (dirs : Nat → Prop) : Prop where
  reachable : ∀ d, dirs d → Live dt d S_DIR
  parent : ∀ d, dirs d → d ≠ rootFb → ∃ p e, Live dt p S_DIR ∧ IsKid dt p e ∧ e.fb = d ∧
    (∀ p' e', Live dt p' S_DIR → IsKid dt p' e' → e'.fb = d → p' = p ∧ e' = e) ∧
    findName (entries dt d) dotdotName = some ⟨dotdotName, p, S_DIR⟩
  dot : ∀ d, dirs d → findName (entries dt d) dotName = some ⟨dotName, d, S_DIR⟩
  names : ∀ d, dirs d → ((entries dt d).map Ent.name).Nodup

/-! ## Readings of a stored tree -/

theorem chainFrom_linked {fat : Nat → Nat} {n c : Nat} {cs : List Nat}
    (h : Linked fat ENDSEC (c :: cs)) (hne : ∀ x ∈ c :: cs, x ≠ ENDSEC)
    (hlen : (c :: cs).length ≤ n) : chainFrom fat n c = c :: cs := by
  have hc : c ≠ ENDSEC := hne c (List.mem_cons_self ..)
  induction cs generalizing n c with
  | nil =>
    obtain ⟨n, rfl⟩ : ∃ m, n = m + 1 := ⟨n - 1, by simp only [List.length_cons] at hlen; omega⟩
    have hend : fat c = ENDSEC := h
    rw [chainFrom, if_neg hc, hend]
    cases n with
    | zero => rfl
    | succ n => rw [chainFrom, if_pos rfl]
  | cons c' cs ih =>
    obtain ⟨n, rfl⟩ : ∃ m, n = m + 1 := ⟨n - 1, by simp only [List.length_cons] at hlen; omega⟩
    have hne' : ∀ x ∈ c' :: cs, x ≠ ENDSEC := fun x hx => hne x (List.mem_cons_of_mem _ hx)
    have hlen' : (c' :: cs).length ≤ n := by
      simp only [List.length_cons] at hlen ⊢
      omega
    rw [chainFrom, if_neg hc, h.1, ih h.2 hne' hlen' (hne' c' (List.mem_cons_self ..))]

/-- A name that fits is read back. -/
theorem cstrAt_eq {b : Bytes} {n off : Nat} {name : CStr} (h : strEq b off name = true)
    (hlen : name.length ≤ n) : cstrAt b n off = name := by
  induction name generalizing n off with
  | nil =>
    cases n with
    | zero => rfl
    | succ n =>
      have h0 : b off = 0 := by simpa [strEq] using h
      rw [cstrAt, dif_pos h0]
  | cons c cs ih =>
    obtain ⟨n, rfl⟩ : ∃ m, n = m + 1 := ⟨n - 1, by simp only [List.length_cons] at hlen; omega⟩
    simp only [strEq, beq_iff_eq, Bool.and_eq_true] at h
    have hne : b off ≠ 0 := by
      rw [h.1]
      exact c.property
    have hlen' : cs.length ≤ n := by
      simp only [List.length_cons] at hlen
      omega
    rw [cstrAt, dif_neg hne, ih h.2 hlen']
    exact congrArg (· :: cs) (Subtype.ext h.1)

theorem entAt_eq {b : Bytes} {n i : Nat} {ents : List Ent} {e : Ent} (h : DirImage b n ents)
    (he : ents[i]? = some e) : entAt b i = e := by
  have hent := h.entry i e he
  have hbound := hent.bound
  have hname : cstrAt b (metaStrlen b) (64 + metaStrbase b + entryName b (entryOff i))
    = e.name := by
    rw [h.strbase]
    exact cstrAt_eq hent.name (by omega)
  unfold entAt
  rw [hname, hent.fb, hent.type]

/-- The entries read from the image of a directory are its table. -/
theorem range_entAt {b : Bytes} {n : Nat} {ents : List Ent} (h : DirImage b n ents) :
    (List.range (metaStrbase b / 16)).map (entAt b) = ents := by
  rw [h.strbase, Nat.mul_div_cancel_left _ (by omega)]
  refine List.ext_getElem (by simp) fun i hi hi' => ?_
  rw [List.getElem_map, List.getElem_range]
  exact entAt_eq h (List.getElem?_eq_getElem hi')

section Stored

variable {dt : Dtree} {fs : Fs} {chain : Nat → List Nat}

theorem chainOf_eq {fb : Nat} {o : Obj} {cs : List Nat} (hs : Sized dt) (h : ObjAt dt fb o cs) :
    chainOf dt fb = cs := by
  obtain ⟨rest, rfl⟩ := h.cons
  exact chainFrom_linked h.linked (fun x hx => hs.ne_endsec (h.lt x hx)) (h.length_le hs)

theorem isChain_of {fb : Nat} {o : Obj} {cs : List Nat} (h : ObjAt dt fb o cs) :
    IsChain dt fb cs := ⟨h.head, h.linked, h.lt⟩

/-- The chain of a first sector is unique. -/
theorem IsChain.unique {fb : Nat} {cs cs' : List Nat} (hs : Sized dt) (h : IsChain dt fb cs)
    (h' : IsChain dt fb cs') : cs = cs' := by
  have hnot : ∀ {l : List Nat}, (∀ c ∈ l, c < dt.sb.fatNum) → ENDSEC ∉ l :=
    fun hl hm => hs.ne_endsec (hl _ hm) rfl
  cases cs with
  | nil => cases h.head
  | cons a cs =>
    cases cs' with
    | nil => cases h'.head
    | cons a' cs' =>
      cases h.head
      cases h'.head
      rw [Linked.unique h.linked h'.linked
        (hnot fun c hc => h.lt c (List.mem_cons_of_mem _ hc))
        (hnot fun c hc => h'.lt c (List.mem_cons_of_mem _ hc))]

theorem entries_at {d uid p : Nat} {flags : UInt8} {kids : List Ent} {cs : List Nat}
    (hs : Sized dt) (hat : ObjAt dt d ⟨uid, flags, .dir p kids⟩ cs) :
    entries dt d = table d p kids := by
  have hdir : DirImage (imageOf dt.data cs) cs.length (table d p kids) := hat.holds.node
  unfold entries
  rw [chainOf_eq hs hat]
  exact range_entAt hdir

theorem entries_eq (hst : Store dt fs chain) {d uid p : Nat} {flags : UInt8} {kids : List Ent}
    (hd : fs d = some ⟨uid, flags, .dir p kids⟩) : entries dt d = table d p kids :=
  entries_at hst.sized (hst.obj d _ hd)

theorem diskView_may (hst : Store dt fs chain) {fb : Nat} {o : Obj} (ho : fs fb = some o)
    (uid : UInt32) (op : UInt8) : (diskView dt).may uid fb op = (view fs).may uid fb op := by
  rw [view_may ho]
  exact header_perm (hst.obj fb o ho) uid op

/-- The type an object carries in the entry that names it. -/
def typeOf (o : Obj) : UInt8 :=
  match o.node with
  | .file _ _ => S_FIL
  | .dir _ _ => S_DIR

theorem typeOf_typed {e : Ent} {o : Obj} (h : Typed e o) : e.type = typeOf o := by
  obtain ⟨uid, flags, node⟩ := o
  cases node with
  | file flen recs =>
    rcases h with h | h
    · exact absurd h.2 id
    · exact h.1
  | dir p kids =>
    rcases h with h | h
    · exact h.1
    · exact absurd trivial h.2

theorem root_entry (hst : Store dt fs chain) :
    entryFb (dt.data 0) 0 = rootFb ∧ entryType (dt.data 0) 0 = S_DIR := by
  have h := hst.rootEntry
  unfold entryAt at h
  simp only [FileEntry.mk.injEq] at h
  exact h.2

/-- What is live on the image is live in the tree. -/
theorem live_obj (hst : Store dt fs chain) (ht : Tree fs) {fb : Nat} {t : UInt8}
    (h : Live dt fb t) : ∃ o, fs fb = some o ∧ t = typeOf o := by
  induction h with
  | root =>
    obtain ⟨uid, flags, kids, hr⟩ := ht.root
    rw [(root_entry hst).1, (root_entry hst).2]
    exact ⟨_, hr, rfl⟩
  | @entry d e _ he ih =>
    obtain ⟨⟨uid, flags, node⟩, hd, htype⟩ := ih
    cases node with
    | file flen recs => cases htype
    | dir p kids =>
      rw [entries_eq hst hd, ← ents_of_dir hd] at he
      obtain ⟨o, ho, hty⟩ := ht.typed_ents he
      exact ⟨o, ho, typeOf_typed hty⟩

/-- What is live in the tree is live on the image. -/
theorem obj_live (hst : Store dt fs chain) (ht : Tree fs) {fb : Nat} {o : Obj}
    (ho : fs fb = some o) : Live dt fb (typeOf o) := by
  have hlive : ∀ n, Relation.ReflTransGen fs.Child rootFb n →
      ∃ o, fs n = some o ∧ Live dt n (typeOf o) := by
    intro n hn
    induction hn with
    | refl =>
      obtain ⟨uid, flags, kids, hr⟩ := ht.root
      have hroot : Live dt (entryFb (dt.data 0) 0) (entryType (dt.data 0) 0) := .root
      rw [(root_entry hst).1, (root_entry hst).2] at hroot
      exact ⟨_, hr, hroot⟩
    | @tail p n _ hc ih =>
      obtain ⟨e, he, hen⟩ := hc
      obtain ⟨o₁, ho₁, hlive⟩ := ih
      obtain ⟨uid, flags, p', kids, hp, hmem⟩ := dir_of_kid he
      rw [hp] at ho₁
      cases ho₁
      have hin : e ∈ entries dt p := by
        rw [entries_eq hst hp]
        exact List.mem_cons_of_mem _ (List.mem_cons_of_mem _ hmem)
      obtain ⟨o₂, ho₂, hty⟩ := ht.typed p e he
      subst hen
      refine ⟨o₂, ho₂, ?_⟩
      rw [← typeOf_typed hty]
      exact .entry hlive hin
  obtain ⟨o', ho', hl⟩ := hlive fb (ht.reach fb o ho)
  rw [ho] at ho'
  cases ho'
  exact hl

theorem live_iff (hst : Store dt fs chain) (ht : Tree fs) (fb : Nat) (t : UInt8) :
    Live dt fb t ↔ ∃ o, fs fb = some o ∧ t = typeOf o := by
  refine ⟨live_obj hst ht, ?_⟩
  rintro ⟨o, ho, rfl⟩
  exact obj_live hst ht ho

theorem live_dir (hst : Store dt fs chain) (ht : Tree fs) {d : Nat} (h : Live dt d S_DIR) :
    ∃ uid flags p kids, fs d = some ⟨uid, flags, .dir p kids⟩ := by
  obtain ⟨⟨uid, flags, node⟩, hd, htype⟩ := live_obj hst ht h
  cases node with
  | file flen recs => cases htype
  | dir p kids => exact ⟨uid, flags, p, kids, hd⟩

theorem live_file (hst : Store dt fs chain) (ht : Tree fs) {d : Nat} (h : Live dt d S_FIL) :
    ∃ uid flags len recs, fs d = some ⟨uid, flags, .file len recs⟩ := by
  obtain ⟨⟨uid, flags, node⟩, hd, htype⟩ := live_obj hst ht h
  cases node with
  | file flen recs => exact ⟨uid, flags, flen, recs, hd⟩
  | dir p kids => cases htype

/-- The image of a tree has a well-formed FAT. -/
theorem Store.fatWellFormed (hst : Store dt fs chain) (ht : Tree fs) : FatWellFormed dt where
  reserved := by
    rw [hst.reserved]
    decide
  rootEntry := hst.rootEntry
  chain := fun fb t h => by
    obtain ⟨o, ho, -⟩ := live_obj hst ht h
    exact ⟨chain fb, isChain_of (hst.obj fb o ho)⟩
  disjoint := fun fb fb' t t' cs cs' h h' hne hc hc' => by
    obtain ⟨o, ho, -⟩ := live_obj hst ht h
    obtain ⟨o', ho', -⟩ := live_obj hst ht h'
    rw [hc.unique hst.sized (isChain_of (hst.obj fb o ho)),
      hc'.unique hst.sized (isChain_of (hst.obj fb' o' ho'))]
    exact hst.disjoint fb fb' o o' ho ho' hne
  owned := fun i hi _ hfat => by
    obtain ⟨fb, o, ho, hm⟩ := hst.owned i hi hfat
    refine ⟨fb, ⟨⟨typeOf o, obj_live hst ht ho⟩, chain fb, isChain_of (hst.obj fb o ho), hm⟩, ?_⟩
    rintro fb' ⟨⟨t, hl⟩, cs, hc, hm'⟩
    obtain ⟨o', ho', -⟩ := live_obj hst ht hl
    rw [hc.unique hst.sized (isChain_of (hst.obj fb' o' ho'))] at hm'
    by_contra hne
    exact hst.disjoint fb' fb o' o ho' ho hne hm' hm

/-- A child of a directory is an entry that is neither `.` nor `..`. -/
theorem isKid_iff (hst : Store dt fs chain) (ht : Tree fs) {d uid p : Nat} {flags : UInt8}
    {kids : List Ent} (hd : fs d = some ⟨uid, flags, .dir p kids⟩) (e : Ent) :
    IsKid dt d e ↔ e ∈ kids := by
  have hnodup := ht.nodup d
  rw [kids_of_dir hd] at hnodup
  simp only [table, List.map_cons, List.nodup_cons, List.mem_cons, not_or] at hnodup
  obtain ⟨⟨-, hdot⟩, hdotdot, -⟩ := hnodup
  unfold IsKid
  rw [entries_eq hst hd]
  constructor
  · rintro ⟨hm, h1, h2⟩
    rcases List.mem_cons.mp hm with rfl | hm
    · exact absurd rfl h1
    rcases List.mem_cons.mp hm with rfl | hm
    · exact absurd rfl h2
    · exact hm
  · intro hm
    refine ⟨List.mem_cons_of_mem _ (List.mem_cons_of_mem _ hm), fun h => hdot ?_,
      fun h => hdotdot ?_⟩
    · rw [← h]
      exact List.mem_map_of_mem hm
    · rw [← h]
      exact List.mem_map_of_mem hm

theorem findName_dot (d p : Nat) (kids : List Ent) :
    findName (table d p kids) dotName = some ⟨dotName, d, S_DIR⟩ := rfl

theorem findName_dotdot (d p : Nat) (kids : List Ent) :
    findName (table d p kids) dotdotName = some ⟨dotdotName, p, S_DIR⟩ := rfl

/-- Directories of a stored tree hang below the root as a tree. -/
theorem Store.namespaceTree (hst : Store dt fs chain) (ht : Tree fs) {dirs : Nat → Prop}
    (hdirs : ∀ d, dirs d → ∃ uid flags p kids, fs d = some ⟨uid, flags, .dir p kids⟩) :
    NamespaceTree dt dirs where
  reachable := fun d h => by
    obtain ⟨uid, flags, p, kids, hd⟩ := hdirs d h
    exact obj_live hst ht hd
  parent := fun d h hroot => by
    obtain ⟨uid, flags, p, kids, hd⟩ := hdirs d h
    obtain ⟨e, hmem, he⟩ := ht.up d uid flags p kids hd hroot
    obtain ⟨puid, pflags, pp, pkids, hp, hkid⟩ := dir_of_kid hmem
    refine ⟨p, e, obj_live hst ht hp, (isKid_iff hst ht hp e).mpr hkid, he, ?_, ?_⟩
    · intro p' e' hp' hk' he'
      obtain ⟨uid', flags', pp', kids', hp'⟩ := live_dir hst ht hp'
      have hmem' : e' ∈ fs.kids p' := by
        rw [kids_of_dir hp']
        exact (isKid_iff hst ht hp' e').mp hk'
      exact ht.unique p' p e' hmem' e hmem (he'.trans he.symm)
    · rw [entries_eq hst hd]
      exact findName_dotdot ..
  dot := fun d h => by
    obtain ⟨uid, flags, p, kids, hd⟩ := hdirs d h
    rw [entries_eq hst hd]
    exact findName_dot ..
  names := fun d h => by
    obtain ⟨uid, flags, p, kids, hd⟩ := hdirs d h
    have hnodup := ht.nodup d
    rw [kids_of_dir hd] at hnodup
    rw [entries_eq hst hd]
    exact names_nodup_table hnodup

/-! ## Decisions on the image and on the tree -/

theorem ents_agree (hst : Store dt fs chain) {d uid p : Nat} {flags : UInt8} {kids : List Ent}
    (hd : fs d = some ⟨uid, flags, .dir p kids⟩) : entries dt d = fs.ents d := by
  rw [entries_eq hst hd, ents_of_dir hd]

theorem walk_agree (hst : Store dt fs chain) (ht : Tree fs) {n base : Nat} {path : CStr}
    (hbase : ∃ uid flags p kids, fs base = some ⟨uid, flags, .dir p kids⟩) :
    walk (entries dt) n base path = walk fs.ents n base path := by
  induction n generalizing base path with
  | zero => rfl
  | succ n ih =>
    obtain ⟨uid, flags, p, kids, hd⟩ := hbase
    rw [walk, walk, ents_agree hst hd]
    cases hs : splitFirst path with
    | none => rfl
    | some q =>
      obtain ⟨next, rest⟩ := q
      dsimp only
      cases hf : findName (fs.ents base) next with
      | none => rfl
      | some e =>
        dsimp only
        by_cases htype : e.type = S_DIR
        · rw [if_pos htype, if_pos htype]
          exact ih (dir_of_typed (ht.typed_ents (findName_mem hf)) htype)
        · rw [if_neg htype, if_neg htype]

theorem resolve_agree (hst : Store dt fs chain) (ht : Tree fs) (path : CStr) :
    resolve (entries dt) path = resolve fs.ents path := by
  obtain ⟨uid, flags, kids, hr⟩ := ht.root
  unfold resolve
  simp only [walk_agree hst ht ⟨uid, flags, rootFb, kids, hr⟩]

theorem target_agree (hst : Store dt fs chain) (ht : Tree fs) (path : CStr) (bad notDir : Int) :
    target (diskView dt) path bad notDir = target (view fs) path bad notDir := by
  unfold target
  simp only [diskView, view, resolve_agree hst ht]

/-- The decisions agree once they agree below a target. -/
theorem dir_agree (hst : Store dt fs chain) (ht : Tree fs) {path name : CStr} {bad notDir : Int}
    {d : Nat} (h : target (view fs) path bad notDir = .ok (d, name)) :
    (diskView dt).ents d = (view fs).ents d ∧
      ∀ uid op, (diskView dt).may uid d op = (view fs).may uid d op := by
  obtain ⟨uid, flags, p, kids, hd⟩ := target_dir ht h
  exact ⟨ents_agree hst hd, fun uid op => diskView_may hst hd uid op⟩

theorem openPlan_agree (hst : Store dt fs chain) (ht : Tree fs) (path : CStr) (uid : UInt32) :
    openPlan (diskView dt) path uid = openPlan (view fs) path uid := by
  unfold openPlan
  rw [target_agree hst ht]
  cases htarget : target (view fs) path (-1) (-1) with
  | error c => rfl
  | ok q =>
    obtain ⟨hents, hmay⟩ := dir_agree hst ht htarget
    simp only [hents, hmay]

theorem removePlan_agree (hst : Store dt fs chain) (ht : Tree fs) (path : CStr) (uid : UInt32) :
    removePlan (diskView dt) path uid = removePlan (view fs) path uid := by
  unfold removePlan
  rw [target_agree hst ht]
  cases htarget : target (view fs) path 1 1 with
  | error c => rfl
  | ok q =>
    obtain ⟨hents, hmay⟩ := dir_agree hst ht htarget
    simp only [hents, hmay]

theorem rmdirPlan_agree (hst : Store dt fs chain) (ht : Tree fs) (path : CStr) (uid : UInt32) :
    rmdirPlan (diskView dt) path uid = rmdirPlan (view fs) path uid := by
  unfold rmdirPlan
  rw [target_agree hst ht]
  cases htarget : target (view fs) path 1 1 with
  | error c => rfl
  | ok q =>
    obtain ⟨d, name⟩ := q
    obtain ⟨hents, hmay⟩ := dir_agree hst ht htarget
    obtain ⟨uid', flags, p, kids, hd⟩ := target_dir ht htarget
    simp only [hents, hmay]
    cases hf : findName ((view fs).ents d) name with
    | none => rfl
    | some e =>
      by_cases htype : e.type = S_DIR
      · obtain ⟨uid', flags, p, kids, he⟩ := dir_of_typed (ht.typed_ents (findName_mem hf)) htype
        have hents' : (diskView dt).ents e.fb = (view fs).ents e.fb := ents_agree hst he
        simp only [hents']
      · simp only [ne_eq, htype, not_false_eq_true, if_true]

theorem movePlan_agree (hst : Store dt fs chain) (ht : Tree fs) (srcpath dstpath : CStr)
    (uid : UInt32) :
    movePlan (diskView dt) srcpath dstpath uid = movePlan (view fs) srcpath dstpath uid := by
  unfold movePlan
  rw [target_agree hst ht, target_agree hst ht]
  cases hs : target (view fs) srcpath 1 1 with
  | error c => rfl
  | ok q =>
    obtain ⟨hents, hmay⟩ := dir_agree hst ht hs
    cases hd : target (view fs) dstpath 1 1 with
    | error c => rfl
    | ok q' =>
      obtain ⟨hents', hmay'⟩ := dir_agree hst ht hd
      simp only [hents, hmay, hents', hmay']

end Stored

end Sbpfs.Cfs.DiskView
