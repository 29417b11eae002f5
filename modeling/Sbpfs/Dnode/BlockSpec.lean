import Sbpfs.Lib.Raise
import Sbpfs.Dnode.Serve

/-!
# What the data node does to its blocks

A write that succeeds puts the bytes into one block and leaves all others alone; the files of
different blocks and of the list are different ones.
-/
namespace Sbpfs.Dnode.BlockSpec

open Sbpfs.Lib.Program Sbpfs.Lib.Memory Sbpfs.Lib.Raise
open Sbpfs.Cfs.Layout (s32 u32 u64OfInt)
open Sbpfs.Wire.Head Sbpfs.Wire.Number Sbpfs.Libc.Request Sbpfs.Dnode.Blockman Sbpfs.Dnode.Serve

variable {d d' : DNode} {b b' : UInt64}

/-- The file of a block. -/
def block (d : DNode) (b : UInt64) : Option File := d.files (pathOf b)

/-- The file that `createblock` makes. -/
def blank : File := ⟨FILEMAXSIZE, fun _ => 0⟩

/-! ## Paths -/

theorem s64_inj {m n : UInt64} (h : s64 m.toNat = s64 n.toNat) : m = n := by
  have hm := m.toNat_lt
  have hn := n.toNat_lt
  unfold s64 at h
  apply UInt64.toNat_inj.mp
  split at h <;> split at h <;> omega

theorem atou_decimal (n : UInt32) : atou (decimal 0 (s32 n.toNat)) = n := by
  have hn := n.toNat_lt
  have hs : -2 ^ 63 ≤ s32 n.toNat ∧ s32 n.toNat < 2 ^ 63 ∧
      u32 (u64OfInt (s32 n.toNat)) = n.toNat := by
    unfold s32 u32 u64OfInt
    split <;> omega
  unfold atou
  rw [atoll_decimal_int hs.1 hs.2.1, hs.2.2, UInt32.ofNat_toNat]

theorem atoull_decimal (n : UInt64) : atoull (decimal 0 (s64 n.toNat)) = n := by
  have hn := n.toNat_lt
  have hs : -2 ^ 63 ≤ s64 n.toNat ∧ s64 n.toNat < 2 ^ 63 ∧ u64OfInt (s64 n.toNat) = n.toNat := by
    unfold s64 u64OfInt
    split <;> omega
  unfold atoull
  rw [atoll_decimal_int hs.1 hs.2.1, hs.2.2, UInt64.ofNat_toNat]

/-- A number is made of digits, perhaps behind a sign. -/
theorem decimal_char {z : Int} {c : UInt8} (h : c ∈ decimal 0 z) : c = 0x2d ∨ isDigit c = true := by
  have hdigit : ∀ c ∈ zeroPad 0 (numeral 10 z.natAbs), isDigit c = true :=
    zeroPad_digits numeral_digits
  unfold decimal at h
  split at h
  · rcases List.mem_cons.mp h with h | h
    · exact .inl h
    · exact .inr (hdigit c h)
  · exact .inr (hdigit c h)

theorem slash_notin_decimal (z : Int) : 0x2f ∉ decimal 0 z := by
  intro h
  rcases decimal_char h with h | h
  · exact absurd h (by decide)
  · exact absurd h (by decide)

theorem numText_inj (h : numText b = numText b') : b = b' := by
  have hval := congrArg pyInt h
  unfold numText at hval
  rw [pyInt_decimal, pyInt_decimal] at hval
  exact s64_inj (Option.some.inj hval)

theorem pathOf_inj (h : pathOf b = pathOf b') : b = b' := by
  have htail : flagnum b ++ 0x2f :: numText b = flagnum b' ++ 0x2f :: numText b' := by
    unfold pathOf at h
    simp only [List.append_assoc, List.singleton_append] at h
    exact List.append_cancel_left h
  obtain ⟨-, -, hnum⟩ := (List.append_cons_inj_of_notMem (slash_notin_decimal _)
    (slash_notin_decimal _)).mp htail
  exact numText_inj hnum

/-- The list of blocks is no block. -/
theorem pathOf_ne_list (b : UInt64) : pathOf b ≠ BLOCKLISTPATH := by
  intro h
  have hat := congrArg (fun p : Str => p[15]?) h
  unfold pathOf at hat
  simp only [List.append_assoc] at hat
  rw [List.getElem?_append_left (by decide)] at hat
  exact absurd hat (by decide)

/-! ## Files -/

/-- The bytes of a file after a write. -/
theorem splice_bytes {f : File} {offset n : Nat} {data : Bytes} (hn : n ≠ 0) (i : Nat) :
    (f.splice offset n data).bytes i = if offset ≤ i ∧ i < offset + n then data (i - offset)
      else if i < f.size then f.bytes i else 0 := by
  unfold File.splice
  rw [if_neg hn]
  dsimp only
  unfold blit
  rw [Nat.zero_add]

theorem splice_size {f : File} {offset n : Nat} {data : Bytes} (hn : n ≠ 0) :
    (f.splice offset n data).size = max f.size (offset + n) := by
  unfold File.splice
  rw [if_neg hn]

theorem setFile_run (path : Str) (f : File) (d : DNode) :
    setFile path f d = .ok ((), { d with files := Function.update d.files path (some f) }) := rfl

theorem sprintf_done {size : Nat} {text p : Str} (h : sprintf size text d = .ok (p, d')) :
    p = text ∧ d' = d := by
  obtain ⟨e, t, hget, hif⟩ := bind_ok.mp h
  cases hget
  split at hif
  · obtain ⟨rfl, rfl⟩ := pure_ok.mp hif
    exact ⟨rfl, rfl⟩
  · cases hif

theorem getpath_done {path : Str} (h : getpath b d = .ok (path, d')) :
    path = pathOf b ∧ d' = d := by
  obtain ⟨p, t, hp, h₁⟩ := bind_ok.mp h
  obtain ⟨rfl, rfl⟩ := sprintf_done hp
  obtain ⟨q, t₁, hq, hret⟩ := bind_ok.mp h₁
  obtain ⟨rfl, rfl⟩ := sprintf_done hq
  obtain ⟨rfl, rfl⟩ := pure_ok.mp hret
  exact ⟨rfl, rfl⟩

/-- What the process finds after one more `fopen`. -/
def opened (d : DNode) : DNode :=
  { d with env := { d.env with opens := fun k => d.env.opens (k + 1) } }

theorem fopen_run (path : Str) (d : DNode) :
    fopen path d = .ok (if d.env.opens 0 then d.files path else none, opened d) := rfl

theorem setRow_files {i : Nat} {s : Str} {u : Unit} (h : setRow i s d = .ok (u, d')) :
    d'.files = d.files := by
  unfold setRow at h
  split at h
  · cases h
    rfl
  · cases h

theorem update_ne {files : Str → Option File} {path p : Str} {f : Option File} (h : p ≠ path) :
    Function.update files path f p = files p := Function.update_of_ne h _ _

theorem update_same {files : Str → Option File} {path : Str} {f : Option File} :
    Function.update files path f path = f := Function.update_self _ _ _

theorem storeList_files {i r : Int} {name : Option Bytes} (h : storeList i name d = .ok (r, d'))
    {p : Str} (hp : p ≠ BLOCKLISTPATH) : d'.files p = d.files p := by
  obtain ⟨blist, t, hopen, h₁⟩ := bind_ok.mp h
  rw [fopen_run] at hopen
  cases hopen
  cases hb : (if d.env.opens 0 then d.files BLOCKLISTPATH else none) with
  | none =>
    rw [hb] at h₁
    cases h₁
  | some blist =>
    rw [hb] at h₁
    obtain ⟨e, t₁, hget, h₂⟩ := bind_ok.mp h₁
    cases hget
    obtain ⟨numc, t₂, hnum, h₃⟩ := bind_ok.mp h₂
    obtain ⟨rfl, rfl⟩ := sprintf_done hnum
    rw [bind_run (setFile_run ..)] at h₃
    split at h₃
    · cases h₃
    split at h₃
    · cases h₃
      exact update_ne hp
    · cases name with
      | none => cases h₃
      | some name =>
        cases h₃
        exact (update_ne hp).trans (update_ne hp)

theorem addlist_files {r : Int} (h : addlist b d = .ok (r, d')) {p : Str} (hp : p ≠ BLOCKLISTPATH) :
    d'.files p = d.files p := by
  obtain ⟨q, t, hq, h₁⟩ := bind_ok.mp h
  obtain ⟨rfl, rfl⟩ := sprintf_done hq
  obtain ⟨e, t₁, hget, h₂⟩ := bind_ok.mp h₁
  cases hget
  obtain ⟨u, t₂, hrow, h₃⟩ := bind_ok.mp h₂
  obtain ⟨v, t₃, hmod, h₄⟩ := bind_ok.mp h₃
  cases hmod
  obtain ⟨e', t₄, hget', h₅⟩ := bind_ok.mp h₄
  cases hget'
  rw [storeList_files h₅ hp]
  exact congrFun (setRow_files hrow) p

/-- A new block is made of zeros, and nothing but the list is changed besides. -/
theorem createblock_done {r : Int} (h : createblock b d = .ok (r, d')) :
    block d' b = some blank ∧ ∀ b' ≠ b, block d' b' = block d b' := by
  obtain ⟨u, t, hdir, h₁⟩ := bind_ok.mp h
  obtain ⟨p, t', hp, hret⟩ := bind_ok.mp hdir
  obtain ⟨-, rfl⟩ := sprintf_done hp
  obtain ⟨-, rfl⟩ := pure_ok.mp hret
  obtain ⟨path, t₁, hpath, h₂⟩ := bind_ok.mp h₁
  obtain ⟨rfl, rfl⟩ := getpath_done hpath
  obtain ⟨ok, t₂, hnew, h₃⟩ := bind_ok.mp h₂
  obtain ⟨ok', t₃, hopen, hcase⟩ := bind_ok.mp hnew
  cases hopen
  cases ho : t₁.env.opens 0 with
  | false =>
    rw [ho] at hcase
    cases hcase
    cases h₃
  | true =>
    rw [ho] at hcase
    cases hcase
    rw [if_pos rfl, bind_run (setFile_run ..)] at h₃
    obtain ⟨q, t₄, hadd, hend⟩ := bind_ok.mp h₃
    obtain ⟨-, rfl⟩ := pure_ok.mp hend
    unfold block
    constructor
    · rw [addlist_files hadd (pathOf_ne_list b)]
      exact Function.update_self _ _ _
    · intro b' hb'
      have hne : pathOf b' ≠ pathOf b := fun he => hb' (pathOf_inj he)
      rw [addlist_files hadd (pathOf_ne_list b')]
      exact (update_ne hne).trans (update_ne hne)

/-! ## Writing -/

/-- `length` bytes of `data` have been written to the block `b` at `offset`. The block is a new one
where there was none, or where its file could not be opened. -/
structure Stored (b : UInt64) (offset length : Nat) (data : Str) (d d' : DNode) : Prop where
  enough : length ≤ data.length
  spliced : ∃ f, (block d b = some f ∨ f = blank ∧ (d.env.opens 0 = true → block d b = none)) ∧
    block d' b = some (f.splice offset length (memOf data fun _ => 0))
  other : ∀ b' ≠ b, block d' b' = block d b'

theorem storeBlock_done {offset length : UInt32} {data : Str} {f : File} {r : Int}
    (h : storeBlock (pathOf b) f offset length data d = .ok (r, d')) :
    r = 0 ∧ length.toNat ≤ data.length ∧
      block d' b = some (f.splice offset.toNat length.toNat (memOf data fun _ => 0)) ∧
      ∀ b' ≠ b, block d' b' = block d b' := by
  unfold storeBlock at h
  split at h
  · rename_i hle
    cases h
    refine ⟨rfl, hle, Function.update_self _ _ _, fun b' hb' => ?_⟩
    exact update_ne fun he => hb' (pathOf_inj he)
  · cases h

theorem writeblock_done {offset length : UInt32} {data : Str} {r : Int}
    (h : writeblock b offset length data d = .ok (r, d')) :
    r = 0 ∧ Stored b offset.toNat length.toNat data d d' ∨ r = -1 := by
  obtain ⟨path, t, hpath, h₁⟩ := bind_ok.mp h
  obtain ⟨rfl, rfl⟩ := getpath_done hpath
  rw [bind_run (fopen_run ..)] at h₁
  cases ho : (if t.env.opens 0 then t.files (pathOf b) else none) with
  | some f =>
    rw [ho] at h₁
    obtain ⟨rfl, hle, hat, hother⟩ := storeBlock_done h₁
    have hf : block t b = some f := by
      split at ho
      · exact ho
      · cases ho
    exact .inl ⟨rfl, hle, ⟨f, .inl hf, hat⟩, hother⟩
  | none =>
    rw [ho] at h₁
    obtain ⟨q, t₁, hcreate, h₂⟩ := bind_ok.mp h₁
    obtain ⟨hblank, hrest⟩ := createblock_done hcreate
    rw [bind_run (fopen_run ..)] at h₂
    cases ho' : (if t₁.env.opens 0 then t₁.files (pathOf b) else none) with
    | none =>
      rw [ho'] at h₂
      cases h₂
      exact .inr rfl
    | some f =>
      rw [ho'] at h₂
      have hf : f = blank := by
        split at ho'
        · exact Option.some.inj (ho'.symm.trans hblank)
        · cases ho'
      obtain ⟨rfl, hle, hat, hother⟩ := storeBlock_done h₂
      have hnone : t.env.opens 0 = true → block t b = none := by
        intro hopen
        rw [if_pos hopen] at ho
        exact ho
      exact .inl ⟨rfl, hle, ⟨f, .inr ⟨hf, hnone⟩, hat⟩,
        fun b' hb' => (hother b' hb').trans (hrest b' hb')⟩

/-! ## What the programs ask of the system -/

/-- Some calls of `fopen` were made; nothing else of the environment was used. -/
def OnlyOpens (d d' : DNode) : Prop :=
  ∃ k, d'.env = { d.env with opens := fun j => d.env.opens (j + k) }

instance : Std.Refl OnlyOpens := ⟨fun _ => ⟨0, rfl⟩⟩

instance : IsTrans DNode OnlyOpens := ⟨fun d d' d'' h h' => by
  obtain ⟨k, hk⟩ := h
  obtain ⟨k', hk'⟩ := h'
  refine ⟨k' + k, ?_⟩
  rw [hk', hk]
  simp only [Nat.add_assoc]⟩

theorem keeps_same_env {α : Type} {m : DM α} (h : ∀ d a d', m d = .ok (a, d') → d'.env = d.env) :
    Keeps OnlyOpens m := by
  constructor
  intro d d' a hrun
  exact ⟨0, h d a d' hrun⟩

theorem keeps_setFile (path : Str) (f : File) : Keeps OnlyOpens (setFile path f) := by
  apply keeps_same_env
  intro d u d' h
  cases h
  rfl

theorem keeps_nextOpen : Keeps OnlyOpens nextOpen := by
  constructor
  intro d d' ok h
  cases h
  exact ⟨1, rfl⟩

theorem keeps_fopen (path : Str) : Keeps OnlyOpens (fopen path) :=
  keeps_bind keeps_nextOpen fun _ => keeps_bind keeps_get fun _ => keeps_pure _

theorem keeps_sprintf (size : Nat) (text : Str) : Keeps OnlyOpens (sprintf size text) :=
  keeps_bind keeps_get fun _ => keeps_ite (keeps_pure _) keeps_fault

theorem keeps_getpath (b : UInt64) : Keeps OnlyOpens (getpath b) :=
  keeps_bind (keeps_sprintf _ _) fun _ => keeps_bind (keeps_sprintf _ _) fun _ => keeps_pure _

theorem keeps_storeList (i : Int) (name : Option Bytes) : Keeps OnlyOpens (storeList i name) := by
  apply keeps_bind (keeps_fopen _)
  intro blist
  cases blist with
  | none => exact keeps_fault
  | some blist =>
    apply keeps_bind keeps_get
    intro d
    apply keeps_bind (keeps_sprintf _ _)
    intro numc
    apply keeps_bind (keeps_setFile _ _)
    intro
    apply keeps_ite keeps_fault
    apply keeps_ite (keeps_pure _)
    cases name with
    | none => exact keeps_fault
    | some name => exact keeps_bind (keeps_setFile _ _) fun _ => keeps_pure _

theorem keeps_addlist (b : UInt64) : Keeps OnlyOpens (addlist b) := by
  apply keeps_bind (keeps_sprintf _ _)
  intro p
  apply keeps_bind keeps_get
  intro d
  have hrow : Keeps OnlyOpens (setRow d.bnum.toNat p) := by
    apply keeps_same_env
    intro d₁ u d₂ h
    unfold setRow at h
    split at h
    · cases h
      rfl
    · cases h
  apply keeps_bind hrow
  intro
  have hcount : Keeps OnlyOpens (modify fun d => { d with bnum := d.bnum + 1 } : DM PUnit) := by
    apply keeps_same_env
    intro d₁ u d₂ h
    cases h
    rfl
  exact keeps_bind hcount fun _ => keeps_bind keeps_get fun _ => keeps_storeList _ _

theorem keeps_createblock (b : UInt64) : Keeps OnlyOpens (createblock b) := by
  have hdir : Keeps OnlyOpens (blockdir b) := keeps_bind (keeps_sprintf _ _) fun _ => keeps_pure _
  apply keeps_bind hdir
  intro
  apply keeps_bind (keeps_getpath b)
  intro path
  have hnew : Keeps OnlyOpens (fopenNew path) :=
    keeps_bind keeps_nextOpen fun _ =>
      keeps_ite (keeps_bind (keeps_setFile _ _) fun _ => keeps_pure _) (keeps_pure _)
  apply keeps_bind hnew
  intro ok
  apply keeps_ite _ keeps_fault
  exact keeps_bind (keeps_setFile _ _) fun _ => keeps_bind (keeps_addlist b) fun _ => keeps_pure _

theorem keeps_storeBlock (path : Str) (f : File) (offset length : UInt32) (data : Str) :
    Keeps OnlyOpens (storeBlock path f offset length data) :=
  keeps_ite (keeps_bind (keeps_setFile _ _) fun _ => keeps_pure _) keeps_fault

theorem keeps_writeblock (b : UInt64) (offset length : UInt32) (data : Str) :
    Keeps OnlyOpens (writeblock b offset length data) := by
  apply keeps_bind (keeps_getpath b)
  intro path
  apply keeps_bind (keeps_fopen path)
  intro f
  cases f with
  | some f => exact keeps_storeBlock _ _ _ _ _
  | none =>
    apply keeps_bind (keeps_createblock b)
    intro
    apply keeps_bind (keeps_fopen path)
    intro f
    cases f with
    | some f => exact keeps_storeBlock _ _ _ _ _
    | none => exact keeps_pure _

/-! ## Runs that go through -/

/-- Both texts of a path fit their arrays. -/
structure TextFits (d : DNode) (b : UInt64) : Prop where
  flag : (flagnum b).length + 1 ≤ 2 + d.env.slack
  num : (numText b).length + 1 ≤ 2 + d.env.slack

theorem sprintf_run {size : Nat} {text : Str} (h : text.length + 1 ≤ size + d.env.slack) :
    sprintf size text d = .ok (text, d) := by
  show (if text.length + 1 ≤ size + d.env.slack then pure text else fault : DM Str) d = _
  rw [if_pos h]
  rfl

theorem sprintf_fault {size : Nat} {text : Str} (h : ¬ text.length + 1 ≤ size + d.env.slack) :
    sprintf size text d = .error .fault := by
  show (if text.length + 1 ≤ size + d.env.slack then pure text else fault : DM Str) d = _
  rw [if_neg h]
  rfl

theorem getpath_run (h : TextFits d b) : getpath b d = .ok (pathOf b, d) := by
  unfold getpath
  rw [bind_run (sprintf_run h.flag), bind_run (sprintf_run h.num)]
  rfl

theorem getpath_fault (h : ¬ TextFits d b) : getpath b d = .error .fault := by
  unfold getpath
  by_cases hf : (flagnum b).length + 1 ≤ 2 + d.env.slack
  · rw [bind_run (sprintf_run hf), bind_fault (sprintf_fault fun hn => h ⟨hf, hn⟩)]
  · rw [bind_fault (sprintf_fault hf)]

theorem blockdir_run (h : TextFits d b) : blockdir b d = .ok ((), d) := by
  unfold blockdir
  rw [bind_run (sprintf_run h.flag)]
  rfl

/-- The list file once the count and record `i` have been written. -/
def recorded (f : File) (d : DNode) (i : Nat) (name : Bytes) : File :=
  (f.splice 0 4 (memOf (decimal 0 (s64 d.bnum.toNat) ++ [0]) d.env.stray)).splice (i * BLOCKNAME)
    BLOCKNAME name

/-- The list can be opened, and the count fits its array. -/
structure ListOpens (d : DNode) (f : File) : Prop where
  opens : d.env.opens 0 = true
  file : d.files BLOCKLISTPATH = some f
  count : (decimal 0 (s64 d.bnum.toNat)).length + 1 ≤ 4 + d.env.slack

theorem storeList_run {f : File} (h : ListOpens d f) (i : Nat) (name : Bytes) :
    storeList i (some name) d = .ok (0, { opened d with
      files := Function.update d.files BLOCKLISTPATH (some (recorded f d i name)) }) := by
  have hcount : (decimal 0 (s64 (opened d).bnum.toNat)).length + 1 ≤ 4 + (opened d).env.slack :=
    h.count
  have hlow : ¬ (i : Int) * BLOCKNAME < -2 ^ 31 := by
    simp only [BLOCKNAME]
    omega
  have hneg : ¬ (i : Int) < 0 := by omega
  unfold storeList
  rw [bind_run (fopen_run ..), if_pos h.opens, h.file]
  dsimp only
  rw [bind_run (show (get : DM DNode) (opened d) = .ok (opened d, opened d) from rfl),
    bind_run (sprintf_run hcount), bind_run (setFile_run ..), if_neg hlow, if_neg hneg,
    bind_run (setFile_run ..)]
  show Except.ok ((0 : Int), _) = _
  simp only [Function.update_idem]
  rfl

/-- Where the list is not opened the `fseek` is on NULL. -/
theorem storeList_fault {i : Int} {name : Option Bytes}
    (h : ∀ f, ¬ ListOpens d f) : storeList i name d = .error .fault := by
  unfold storeList
  rw [bind_run (fopen_run ..)]
  cases hf : (if d.env.opens 0 then d.files BLOCKLISTPATH else none) with
  | none => rfl
  | some f =>
    have hopen : d.env.opens 0 = true ∧ d.files BLOCKLISTPATH = some f := by
      split at hf
      · exact ⟨‹_›, hf⟩
      · cases hf
    have hcount : ¬ (decimal 0 (s64 (opened d).bnum.toNat)).length + 1 ≤ 4 + (opened d).env.slack :=
      fun hc => h f ⟨hopen.1, hopen.2, hc⟩
    dsimp only
    rw [bind_run (show (get : DM DNode) (opened d) = .ok (opened d, opened d) from rfl),
      bind_fault (sprintf_fault hcount)]

/-- The number behind the others in `blocklist`, before the list file is written. -/
def entered (d : DNode) (b : UInt64) : DNode :=
  { d with
    blocklist := blit d.blocklist (d.bnum.toNat * MAX_BLOCKSIZE) (memOf (numText b) fun _ => 0) 0
      ((numText b).length + 1)
    bnum := d.bnum + 1 }

/-- What `addlist` needs. -/
structure Room (d : DNode) (b : UInt64) (f : File) : Prop where
  row : d.bnum.toNat * MAX_BLOCKSIZE + (numText b).length + 1 ≤ BLOCKNAME * MAX_BLOCKSIZE
  list : ListOpens (entered d b) f

/-- The node once `addlist` has entered a number in both lists. -/
def added (d : DNode) (b : UInt64) (f : File) : DNode :=
  { opened (entered d b) with
    files := Function.update d.files BLOCKLISTPATH (some (recorded f (entered d b)
      (entered d b).bnum.toNat (memOf (numText b ++ [0]) d.env.stray))) }

theorem added_list (d : DNode) (b : UInt64) (f : File) : (added d b f).files BLOCKLISTPATH
    = some (recorded f (entered d b) (entered d b).bnum.toNat
      (memOf (numText b ++ [0]) d.env.stray)) := by
  have hfiles : (added d b f).files = Function.update d.files BLOCKLISTPATH (some (recorded f
      (entered d b) (entered d b).bnum.toNat (memOf (numText b ++ [0]) d.env.stray))) := rfl
  rw [hfiles, update_same]

theorem addlist_run {f : File} (hnum : (numText b).length + 1 ≤ 2 + d.env.slack) (h : Room d b f) :
    addlist b d = .ok (0, added d b f) := by
  have hrow : setRow d.bnum.toNat (numText b) d = .ok ((), { d with
      blocklist := blit d.blocklist (d.bnum.toNat * MAX_BLOCKSIZE) (memOf (numText b) fun _ => 0) 0
        ((numText b).length + 1) }) := by
    unfold setRow
    rw [if_pos h.row]
    rfl
  unfold addlist
  rw [bind_run (sprintf_run hnum), bind_run (show (get : DM DNode) d = .ok (d, d) from rfl),
    bind_run hrow]
  exact storeList_run h.list _ _

theorem addlist_fault (hnum : (numText b).length + 1 ≤ 2 + d.env.slack) (h : ∀ f, ¬ Room d b f) :
    addlist b d = .error .fault := by
  unfold addlist
  rw [bind_run (sprintf_run hnum), bind_run (show (get : DM DNode) d = .ok (d, d) from rfl)]
  by_cases hrow : d.bnum.toNat * MAX_BLOCKSIZE + (numText b).length + 1 ≤ BLOCKNAME * MAX_BLOCKSIZE
  · have hset : setRow d.bnum.toNat (numText b) d = .ok ((), { d with
        blocklist := blit d.blocklist (d.bnum.toNat * MAX_BLOCKSIZE)
          (memOf (numText b) fun _ => 0) 0 ((numText b).length + 1) }) := by
      unfold setRow
      rw [if_pos hrow]
      rfl
    rw [bind_run hset]
    have hstore : storeList ((entered d b).bnum.toNat : Int)
        (some (memOf (numText b ++ [0]) d.env.stray)) (entered d b) = .error .fault :=
      storeList_fault fun f hf => h f ⟨hrow, hf⟩
    exact hstore
  · have hset : setRow d.bnum.toNat (numText b) d = .error .fault := by
      unfold setRow
      rw [if_neg hrow]
      rfl
    rw [bind_fault hset]

/-- The node once the file of a block has been made. -/
def blanked (d : DNode) (b : UInt64) : DNode :=
  { opened d with files := Function.update d.files (pathOf b) (some blank) }

/-- `createblock` goes through: both files are opened and the lists have room. -/
structure CanCreate (d : DNode) (b : UInt64) (f : File) : Prop where
  opens : d.env.opens 0 = true
  room : Room (blanked d b) b f

theorem fopenNew_run (path : Str) (d : DNode) :
    fopenNew path d = if d.env.opens 0 then .ok (true, { opened d with
      files := Function.update d.files path (some ⟨0, fun _ => 0⟩) }) else .ok (false,
        opened d) := by
  unfold fopenNew
  rw [bind_run (show nextOpen d = .ok (d.env.opens 0, opened d) from rfl)]
  cases d.env.opens 0 <;> rfl

theorem setFile_blank (d : DNode) (b : UInt64) :
    setFile (pathOf b) ⟨FILEMAXSIZE, fun _ => 0⟩ { opened d with
      files := Function.update d.files (pathOf b) (some ⟨0, fun _ => 0⟩) }
        = .ok ((), blanked d b) := by
  rw [setFile_run]
  simp only [Function.update_idem, blanked, blank]

theorem createblock_run {f : File} (ht : TextFits d b) (h : CanCreate d b f) :
    createblock b d = .ok (0, added (blanked d b) b f) := by
  have hnum : (numText b).length + 1 ≤ 2 + (blanked d b).env.slack := ht.num
  unfold createblock
  rw [bind_run (blockdir_run ht), bind_run (getpath_run ht)]
  have hnew := fopenNew_run (pathOf b) d
  rw [if_pos h.opens] at hnew
  rw [bind_run hnew, if_pos rfl]
  rw [bind_run (setFile_blank d b), bind_run (addlist_run hnum h.room)]
  rfl

theorem createblock_fault (ht : TextFits d b) (h : ∀ f, ¬ CanCreate d b f) :
    createblock b d = .error .fault := by
  have hnum : (numText b).length + 1 ≤ 2 + (blanked d b).env.slack := ht.num
  have hnew := fopenNew_run (pathOf b) d
  unfold createblock
  rw [bind_run (blockdir_run ht), bind_run (getpath_run ht)]
  cases hopen : d.env.opens 0 with
  | false =>
    rw [hopen] at hnew
    rw [bind_run hnew]
    rfl
  | true =>
    rw [hopen, if_pos rfl] at hnew
    rw [bind_run hnew, if_pos rfl]
    rw [bind_run (setFile_blank d b), bind_fault (addlist_fault hnum fun f hf => h f ⟨hopen, hf⟩)]

/-! ## Messages -/

/-- Only outcomes of `malloc` and `send` have been used up. -/
def Used (d d' : DNode) : Prop :=
  ∃ j k : Nat, d' = { d with env := { d.env with
    mallocs := fun n => d.env.mallocs (n + j), sends := fun n => d.env.sends (n + k) } }

/-- The node after a `malloc`, and after a `send`. -/
def malloced (d : DNode) : DNode :=
  { d with env := { d.env with mallocs := fun k => d.env.mallocs (k + 1) } }

def spent (d : DNode) : DNode :=
  { d with env := { d.env with sends := fun k => d.env.sends (k + 1) } }

theorem Used.refl (d : DNode) : Used d d := ⟨0, 0, rfl⟩

theorem Used.trans {d'' : DNode} (h : Used d d') (h' : Used d' d'') : Used d d'' := by
  obtain ⟨j, k, rfl⟩ := h
  obtain ⟨j', k', rfl⟩ := h'
  refine ⟨j' + j, k' + k, ?_⟩
  simp only [Nat.add_assoc]

theorem used_malloced (d : DNode) : Used d (malloced d) := ⟨1, 0, rfl⟩

theorem used_spent (d : DNode) : Used d (spent d) := ⟨0, 1, rfl⟩

section Sending

variable {c : Conn}

theorem nextMalloc_run (d : DNode) : nextMalloc d = .ok (d.env.mallocs 0, malloced d) := rfl

theorem nextSend_run (d : DNode) : nextSend d = .ok (d.env.sends 0, spent d) := rfl

theorem onNode_run {α : Type} {m : DM α} {a : α} (h : m c.node = .ok (a, d)) :
    onNode m c = .ok (a, { c with node := d }) := focus_run h

/-- The node once a head has been sent, or could not be made. -/
def headed (d : DNode) : DNode := if d.env.mallocs 0 then spent (malloced d) else malloced d

theorem used_headed (d : DNode) : Used d (headed d) := by
  unfold headed
  split
  · exact (used_malloced d).trans (used_spent _)
  · exact used_malloced d

theorem sendHead_run (c : Conn) : sendHead c
    = .ok (c.node.env.mallocs 0 && c.node.env.sends 0, { c with node := headed c.node }) := by
  unfold sendHead headed
  rw [bind_run (onNode_run (nextMalloc_run c.node))]
  cases c.node.env.mallocs 0 with
  | true => rfl
  | false => rfl

theorem sendHeadData_run (c : Conn) : ∃ d', sendHeadData c
    = .ok (c.node.env.mallocs 0 && c.node.env.sends 0 && c.node.env.sends 1,
      { c with node := d' }) ∧
      Used c.node d' := by
  unfold sendHeadData
  rw [bind_run (sendHead_run c)]
  cases hmalloc : c.node.env.mallocs 0 with
  | false => exact ⟨headed c.node, rfl, used_headed _⟩
  | true =>
    cases hsend : c.node.env.sends 0 with
    | false => exact ⟨headed c.node, rfl, used_headed _⟩
    | true =>
      have hsends : (headed c.node).env.sends 0 = c.node.env.sends 1 := by
        unfold headed
        rw [if_pos hmalloc]
        rfl
      refine ⟨spent (headed c.node), ?_, (used_headed _).trans (used_spent _)⟩
      rw [if_pos (by decide), onNode_run (nextSend_run _), hsends]
      rfl

theorem sendMessage_run {parts : SM Bool} {ok : Bool}
    (h : parts c = .ok (ok, { c with node := d' }))
    (a : Libc.Transfer.Answer) : sendMessage parts a c
      = .ok ((), ⟨d', if ok then c.sent ++ [a] else c.sent⟩) := by
  unfold sendMessage
  rw [bind_run h]
  cases ok with
  | true => rfl
  | false => rfl

end Sending

end Sbpfs.Dnode.BlockSpec
