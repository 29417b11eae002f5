import Mathlib.Data.List.TakeWhile
import Mathlib.Logic.Relation
import Sbpfs.Wire.Number
import Sbpfs.Cnode.Pool

/-!
# The accounts of the control node

`UsersInfo` is loaded from the lines of the password file at start and written back at
shutdown. A restart keeps every account but those whose name begins with the comment sign;
such a name comes from a comment with blanks in front of it.
-/
namespace Sbpfs.Cnode.Users

open Sbpfs.Lib.Search Sbpfs.Wire.Head Sbpfs.Wire.Number Sbpfs.Cnode.Pool

structure UserInfo where
  uid : Int
  username : Str
  password : Str
  deriving DecidableEq, Repr

structure UsersInfo where
  users : Map Str UserInfo
  ucount : Int

inductive PyError
  | assertionError
  | userException (type : Str)
  | typeError (message : Str)
  deriving DecidableEq, Repr

def USER_EXIST_EXCEPTION : Str := ascii "UserExistException"

/-- The line `str(user)`. -/
def UserInfo.str (a : UserInfo) : Str :=
  List.intercalate (ascii ":") [a.username, decimal 0 a.uid, a.password]

/-- `UserInfo(uid, *rest)`. -/
def UserInfo.init (uid : Int) (rest : List Str) : Except PyError UserInfo :=
  match rest with
  | [username, password] => .ok ⟨uid, username, password⟩
  | _ => .error (.typeError (ascii "__init__() takes exactly 4 arguments (" ++
      numeral 10 (rest.length + 2) ++ ascii " given)"))

def UsersInfo.empty : UsersInfo := ⟨∅, 0⟩

/-- `str(users)` when the dictionary lists its keys in this order. -/
def UsersInfo.str (u : UsersInfo) (order : List Str) : Str :=
  List.intercalate (ascii "\n") ((order.filterMap u.users.lookup).map UserInfo.str)

/-- One round of the loop of `load`; an exception leaves the users as they are. -/
def UsersInfo.loadLine (u : UsersInfo) (line : Str) : UsersInfo :=
  if ascii "#" <+: line then u
  else
    match split (ascii ":") (strip line) with
    | [un, uid, passwd] =>
      match pyInt uid with
      | some uid =>
        { users := u.users.insert un ⟨uid, un, passwd⟩
          ucount := if u.ucount < uid then uid else u.ucount }
      | none => u
    | _ => u

def UsersInfo.load (lines : List Str) : UsersInfo := lines.foldl UsersInfo.loadLine .empty

/-- The user is known and has this password; everybody may be `anonymous`. -/
def UsersInfo.check (u : UsersInfo) (username password : Str) : Bool :=
  match u.users.lookup username with
  | none => false
  | some user => username = ascii "anonymous" || user.password = password

def UsersInfo.findUid (u : UsersInfo) (username : Str) : Option Int :=
  (u.users.lookup username).map UserInfo.uid

def UsersInfo.hasUser (u : UsersInfo) (username : Str) : Bool := username ∈ u.users

/-- `user` is a tuple of strings. -/
def UsersInfo.adduser (u : UsersInfo) (user : List Str) : Except PyError UsersInfo :=
  if user.length ≠ 3 then .error .assertionError
  else if u.hasUser (user.headD []) then .error (.userException USER_EXIST_EXCEPTION)
  else do
    let info ← UserInfo.init u.ucount user
    return { users := u.users.insert (user.headD []) info, ucount := u.ucount + 1 }

/-- `f.readlines()` of a file with this text. -/
def readlines : Str → List Str
  | [] => []
  | c :: s =>
    if c = 0x0a then [c] :: readlines s
    else
      match readlines s with
      | [] => [[c]]
      | line :: lines => (c :: line) :: lines

/-- A shutdown and a start: the users are written to the file and read from it again. -/
def Restart (u u' : UsersInfo) : Prop :=
  ∃ order : List Str, order.Perm u.users.keys ∧ u' = .load (readlines (u.str order))

/-- No account was lost, added or altered. -/
def SameAccounts (u u' : UsersInfo) : Prop := ∀ name, u'.users.lookup name = u.users.lookup name

/-- However often the server is restarted, the accounts stay as they are. -/
def Steady (u : UsersInfo) : Prop :=
  ∀ u', Relation.ReflTransGen Restart u u' → SameAccounts u u'

/-- A line of a text has its newline at its end only. -/
def TextLine (line : Str) : Prop := 0x0a ∉ line.dropLast

/-- The account a line of the file stands for. -/
def account (line : Str) : Option UserInfo :=
  if ascii "#" <+: line then none
  else
    match split (ascii ":") (strip line) with
    | [un, uid, passwd] => (pyInt uid).map fun uid => ⟨uid, un, passwd⟩
    | _ => none

/-- A line that is no comment as it stands, but whose user name begins like one. -/
def Hidden (line : Str) : Prop := ∃ a, account line = some a ∧ ascii "#" <+: a.username

/-! ## Lines -/

theorem loadLine_account (u : UsersInfo) (line : Str) :
    (u.loadLine line).users = match account line with
      | none => u.users
      | some a => u.users.insert a.username a := by
  unfold UsersInfo.loadLine account
  by_cases hc : ascii "#" <+: line
  · rw [if_pos hc, if_pos hc]
  · rw [if_neg hc, if_neg hc]
    split
    · cases hz : pyInt _ <;> rfl
    · rfl

/-- The accounts of a loaded file: of two lines about one user the last counts. -/
theorem load_lookup (lines : List Str) (name : Str) :
    (UsersInfo.load lines).users.lookup name
      = (lines.filterMap account).reverse.find? fun a => a.username = name := by
  induction lines using List.reverseRecOn with
  | nil => rfl
  | append_singleton lines line ih =>
    have hstep : UsersInfo.load (lines ++ [line]) = (UsersInfo.load lines).loadLine line := by
      unfold UsersInfo.load
      rw [List.foldl_append]
      rfl
    rw [hstep, loadLine_account, List.filterMap_append, List.reverse_append]
    cases ha : account line with
    | none => simpa [ha] using ih
    | some a =>
      simp only [List.filterMap_cons, List.filterMap_nil, ha, List.reverse_cons, List.reverse_nil,
        List.nil_append, List.singleton_append, List.find?_cons]
      by_cases hname : a.username = name
      · rw [← hname, AList.lookup_insert]
        simp
      · rw [AList.lookup_insert_ne (Ne.symm hname), ih]
        simp [hname]

theorem strip_space (s : Str) {c : UInt8} (hc : isSpace c = true) : strip (s ++ [c]) = strip s := by
  unfold strip
  by_cases hall : ∀ x ∈ s, isSpace x = true
  · have hnil : s.dropWhile isSpace = [] := List.dropWhile_eq_nil_iff.mpr hall
    have hnil' : (s ++ [c]).dropWhile isSpace = [] := by
      refine List.dropWhile_eq_nil_iff.mpr fun x hx => ?_
      rcases List.mem_append.mp hx with hx | hx
      · exact hall x hx
      · rw [List.mem_singleton.mp hx]
        exact hc
    rw [hnil, hnil']
  · have happ : (s ++ [c]).dropWhile isSpace = s.dropWhile isSpace ++ [c] := by
      rw [List.dropWhile_append, if_neg]
      rw [List.isEmpty_iff, List.dropWhile_eq_nil_iff]
      exact hall
    rw [happ, List.reverse_append, List.reverse_singleton, List.singleton_append,
      List.dropWhile_cons_of_pos hc]

theorem account_newline (line : Str) : account (line ++ [0x0a]) = account line := by
  have hstarts : ascii "#" <+: line ++ [0x0a] ↔ ascii "#" <+: line := by
    cases line with
    | nil => decide
    | cons c line => simp [ascii, List.cons_prefix_cons]
  unfold account
  rw [strip_space line (by decide)]
  simp only [hstarts]

theorem account_nil : account [] = none := by decide

theorem strip_head (s : Str) : ∀ c ∈ (strip s).head?, isSpace c = false := by
  intro c hc
  -- what is cut off behind is cut off a list that begins with this character
  obtain ⟨t, ht⟩ : ∃ t, s.dropWhile isSpace = strip s ++ t := by
    have hsuffix := List.dropWhile_suffix (l := (s.dropWhile isSpace).reverse) isSpace
    obtain ⟨t, ht⟩ := List.reverse_prefix.mpr hsuffix
    exact ⟨t, by rw [← List.reverse_reverse (s.dropWhile isSpace), ← ht]; rfl⟩
  obtain ⟨rest, hrest⟩ : ∃ rest, strip s = c :: rest := List.head?_eq_some_iff.mp hc
  have hhead : (s.dropWhile isSpace).head? = some c := by
    rw [ht, hrest]
    rfl
  have hnot := List.head?_dropWhile_not isSpace s
  rw [hhead] at hnot
  simpa using hnot

theorem strip_last (s : Str) : ∀ c ∈ (strip s).getLast?, isSpace c = false := by
  intro c hc
  unfold strip at hc
  rw [List.getLast?_reverse] at hc
  have hnot := List.head?_dropWhile_not isSpace (s.dropWhile isSpace).reverse
  rw [hc] at hnot
  simpa using hnot

theorem mem_of_strip {s : Str} {c : UInt8} (h : c ∈ strip s) : c ∈ s := by
  unfold strip at h
  have h₁ := List.dropWhile_sublist (p := isSpace) |>.mem (List.mem_reverse.mp h)
  exact (List.dropWhile_sublist (p := isSpace)).mem (List.mem_reverse.mp h₁)

/-- Stripping takes the newline off a text line. -/
theorem newline_strip {line : Str} (h : TextLine line) : 0x0a ∉ strip line := by
  rcases List.eq_nil_or_concat line with rfl | ⟨t, c, rfl⟩
  · decide
  have ht : 0x0a ∉ t := by
    unfold TextLine at h
    rwa [List.concat_eq_append, List.dropLast_concat] at h
  rw [List.concat_eq_append]
  by_cases hc : c = 0x0a
  · rw [hc, strip_space t (by decide)]
    exact fun hm => ht (mem_of_strip hm)
  · intro hm
    rcases List.mem_append.mp (mem_of_strip hm) with hm | hm
    · exact ht hm
    · exact hc (List.mem_singleton.mp hm).symm

/-! ## Accounts as lines -/

/-- What the name and the password of a loaded account look like. -/
structure Plain (a : UserInfo) : Prop where
  name : Free (ascii ":") a.username
  password : Free (ascii ":") a.password
  name_line : 0x0a ∉ a.username
  password_line : 0x0a ∉ a.password
  head : ∀ c ∈ a.username.head?, isSpace c = false
  last : ∀ c ∈ a.password.getLast?, isSpace c = false

theorem colon_ne : ascii ":" ≠ [] := by decide

theorem colon_borderless : Borderless (ascii ":") := by decide

theorem str_eq (a : UserInfo) :
    a.str = a.username ++ 0x3a :: (decimal 0 a.uid ++ 0x3a :: a.password) := by
  show List.intercalate [0x3a] [a.username, decimal 0 a.uid, a.password] = _
  simp [List.intercalate]

/-- A line ends with the password, or with the sign in front of it. -/
theorem getLast_line (un uid passwd : Str) :
    (un ++ 0x3a :: (uid ++ 0x3a :: passwd)).getLast? = some (passwd.getLast?.getD 0x3a) := by
  have happ : un ++ 0x3a :: (uid ++ 0x3a :: passwd) = (un ++ 0x3a :: uid) ++ 0x3a :: passwd := by
    simp
  rw [happ, List.getLast?_append, List.getLast?_cons]
  rfl

theorem account_plain {line : Str} {a : UserInfo} (h : account line = some a)
    (ht : TextLine line) : Plain a := by
  obtain ⟨p, ps, hsplit, hfree, hjoin⟩ := split_spec colon_ne (strip line)
  have hline := newline_strip ht
  have hhead := strip_head line
  have hlast := strip_last line
  unfold account at h
  split at h
  · cases h
  rw [hsplit] at h
  split at h
  · rename_i un uid passwd hparts
    obtain ⟨z, -, rfl⟩ := Option.map_eq_some_iff.mp h
    rw [hparts] at hjoin hfree
    have hjoin' : strip line = un ++ 0x3a :: (uid ++ 0x3a :: passwd) := by
      rw [hjoin]
      show List.intercalate [0x3a] [un, uid, passwd] = _
      simp [List.intercalate]
    rw [hjoin'] at hline hhead hlast
    refine ⟨hfree un (by simp), hfree passwd (by simp), fun hm => hline (by simp [hm]),
      fun hm => hline (by simp [hm]), fun c hc => hhead c ?_, fun c hc => hlast c ?_⟩
    · obtain ⟨rest, rfl⟩ := List.head?_eq_some_iff.mp hc
      rfl
    · rw [getLast_line, Option.mem_def.mp hc]
      rfl
  · cases h

theorem decimal_chars {z : Int} {c : UInt8} (h : c ∈ decimal 0 z) :
    c = 0x2d ∨ isDigit c = true := by
  have hdigits : ∀ c ∈ numeral 10 z.natAbs, isDigit c = true := numeral_digits
  unfold decimal at h
  split at h
  · exact (List.mem_cons.mp h).imp_right fun h => zeroPad_digits hdigits c h
  · exact .inr (zeroPad_digits hdigits c h)

/-- The line of an account is read as this account. -/
theorem account_str {a : UserInfo} (h : Plain a) (hc : ¬ ascii "#" <+: a.username) :
    account a.str = some a := by
  have hstrip : strip a.str = a.str := by
    refine strip_of_ends (fun c hm => ?_) fun c hm => ?_
    · rw [str_eq] at hm
      cases hu : a.username with
      | nil =>
        rw [hu] at hm
        cases hm
        decide
      | cons c' s =>
        rw [hu] at hm
        cases hm
        exact h.head _ (by rw [hu]; rfl)
    · rw [str_eq, getLast_line] at hm
      cases hp : a.password.getLast? with
      | none =>
        rw [hp] at hm
        cases hm
        decide
      | some c' =>
        rw [hp] at hm
        cases hm
        exact h.last _ hp
  have hcolon : Free (ascii ":") (decimal 0 a.uid) := by
    intro hi
    rcases decimal_chars (hi.subset (show 0x3a ∈ ascii ":" by decide)) with hd | hd
    · exact absurd hd (by decide)
    · exact absurd hd (by decide)
  have hsplit : split (ascii ":") a.str = [a.username, decimal 0 a.uid, a.password] := by
    refine split_join colon_ne colon_borderless fun x hx => ?_
    simp only [List.mem_cons, List.not_mem_nil, or_false] at hx
    rcases hx with rfl | rfl | rfl
    · exact h.name
    · exact hcolon
    · exact h.password
  have hnot : ¬ ascii "#" <+: a.str := by
    rw [str_eq]
    cases hu : a.username with
    | nil =>
      intro hp
      simp [ascii, List.cons_prefix_cons] at hp
    | cons c s =>
      rw [hu] at hc
      simpa [ascii, List.cons_prefix_cons] using hc
  unfold account
  rw [if_neg hnot, hstrip, hsplit]
  simp only [pyInt_decimal, Option.map_some]

theorem account_comment {a : UserInfo} (hc : ascii "#" <+: a.username) : account a.str = none := by
  have hp : ascii "#" <+: a.str := by
    rw [str_eq]
    exact hc.trans (List.prefix_append _ _)
  unfold account
  rw [if_pos hp]

/-! ## The file -/

theorem readlines_last {l : Str} (hl : 0x0a ∉ l) : readlines l = if l = [] then [] else [l] := by
  induction l with
  | nil => rfl
  | cons c l ih =>
    have hc : c ≠ 0x0a := fun h => hl (h ▸ List.mem_cons_self ..)
    have htail := ih fun h => hl (List.mem_cons_of_mem _ h)
    rw [readlines, if_neg hc, htail, if_neg (List.cons_ne_nil _ _)]
    cases l <;> rfl

theorem readlines_line {l t : Str} (hl : 0x0a ∉ l) :
    readlines (l ++ 0x0a :: t) = (l ++ [0x0a]) :: readlines t := by
  induction l with
  | nil => rfl
  | cons c l ih =>
    have hc : c ≠ 0x0a := fun h => hl (h ▸ List.mem_cons_self ..)
    have htail := ih fun h => hl (List.mem_cons_of_mem _ h)
    rw [List.cons_append, readlines, if_neg hc, htail]
    rfl

/-- The accounts on the lines of a file are the accounts on the lines it was joined from. -/
theorem accounts_readlines {ls : List Str} (hls : ∀ l ∈ ls, 0x0a ∉ l) :
    (readlines (List.intercalate (ascii "\n") ls)).filterMap account = ls.filterMap account := by
  induction ls with
  | nil => rfl
  | cons l ls ih =>
    have hl : 0x0a ∉ l := hls l (List.mem_cons_self ..)
    have htail := ih fun l hl => hls l (List.mem_cons_of_mem _ hl)
    cases ls with
    | nil =>
      rw [List.intercalate_singleton, readlines_last hl]
      split
      · rename_i hnil
        subst hnil
        simp [account_nil]
      · rfl
    | cons l' ls =>
      rw [List.intercalate_cons_cons, List.append_assoc,
        show ascii "\n" ++ List.intercalate (ascii "\n") (l' :: ls)
          = 0x0a :: List.intercalate (ascii "\n") (l' :: ls) from rfl,
        readlines_line hl, List.filterMap_cons, account_newline, htail]
      rfl

/-- Every account is entered under its own name and looks like a loaded one. -/
def UsersInfo.Loaded (u : UsersInfo) : Prop :=
  ∀ name a, u.users.lookup name = some a → a.username = name ∧ Plain a

theorem load_loaded {lines : List Str} (h : ∀ l ∈ lines, TextLine l) :
    (UsersInfo.load lines).Loaded := by
  intro name a ha
  rw [load_lookup] at ha
  have hmem := List.mem_reverse.mp (List.mem_of_find?_eq_some ha)
  obtain ⟨line, hline, hacc⟩ := List.mem_filterMap.mp hmem
  have hname := List.find?_some ha
  exact ⟨by simpa using hname, account_plain hacc (h line hline)⟩

section Restart

variable {u u' : UsersInfo}

/-- What is read back of the file of a shutdown. -/
theorem accounts_str (h : u.Loaded) (order : List Str) (a : UserInfo) :
    a ∈ (readlines (u.str order)).filterMap account ↔
      a ∈ order.filterMap u.users.lookup ∧ ¬ ascii "#" <+: a.username := by
  have hplain : ∀ b ∈ order.filterMap u.users.lookup, Plain b := by
    intro b hb
    obtain ⟨name, -, hname⟩ := List.mem_filterMap.mp hb
    exact (h name b hname).2
  have hline : ∀ l ∈ (order.filterMap u.users.lookup).map UserInfo.str, 0x0a ∉ l := by
    intro l hl
    obtain ⟨b, hb, rfl⟩ := List.mem_map.mp hl
    have hp := hplain b hb
    rw [str_eq]
    intro hm
    simp only [List.mem_append, List.mem_cons] at hm
    rcases hm with hm | hm | hm | hm | hm
    · exact hp.name_line hm
    · exact absurd hm (by decide)
    · rcases decimal_chars hm with hd | hd
      · exact absurd hd (by decide)
      · exact absurd hd (by decide)
    · exact absurd hm (by decide)
    · exact hp.password_line hm
  unfold UsersInfo.str
  rw [accounts_readlines hline, List.filterMap_map]
  constructor
  · intro ha
    obtain ⟨b, hb, hacc⟩ := List.mem_filterMap.mp ha
    by_cases hc : ascii "#" <+: b.username
    · rw [Function.comp_apply, account_comment hc] at hacc
      cases hacc
    · rw [Function.comp_apply, account_str (hplain b hb) hc] at hacc
      cases hacc
      exact ⟨hb, hc⟩
  · rintro ⟨ha, hc⟩
    exact List.mem_filterMap.mpr ⟨a, ha, account_str (hplain a ha) hc⟩

/-- A restart keeps the accounts whose names do not begin like a comment. -/
theorem restart_lookup (h : u.Loaded) (hr : Restart u u') (name : Str) (a : UserInfo) :
    u'.users.lookup name = some a ↔ u.users.lookup name = some a ∧ ¬ ascii "#" <+: name := by
  obtain ⟨order, hperm, rfl⟩ := hr
  have hkey : ∀ b, b ∈ (readlines (u.str order)).filterMap account →
      u.users.lookup b.username = some b := by
    intro b hb
    obtain ⟨key, -, hlook⟩ := List.mem_filterMap.mp ((accounts_str h order b).mp hb).1
    rw [(h key b hlook).1]
    exact hlook
  rw [load_lookup]
  constructor
  · intro ha
    have hmem := List.mem_reverse.mp (List.mem_of_find?_eq_some ha)
    have hname : a.username = name := by simpa using List.find?_some ha
    rw [← hname]
    exact ⟨hkey a hmem, ((accounts_str h order a).mp hmem).2⟩
  · rintro ⟨hlook, hc⟩
    have hname := (h name a hlook).1
    have hin : name ∈ order :=
      hperm.mem_iff.mpr (AList.mem_keys.mp (AList.lookup_isSome.mp (by rw [hlook]; rfl)))
    have hmem : a ∈ (readlines (u.str order)).filterMap account :=
      (accounts_str h order a).mpr ⟨List.mem_filterMap.mpr ⟨name, hin, hlook⟩, hname ▸ hc⟩
    -- the line found under this name is the line of `a`
    obtain ⟨b, hb⟩ : ∃ b, ((readlines (u.str order)).filterMap account).reverse.find?
        (fun a => a.username = name) = some b := by
      refine Option.isSome_iff_exists.mp (List.find?_isSome.mpr ⟨a, List.mem_reverse.mpr hmem, ?_⟩)
      exact decide_eq_true hname
    have hbname : b.username = name := by simpa using List.find?_some hb
    have hblook := hkey b (List.mem_reverse.mp (List.mem_of_find?_eq_some hb))
    rw [hbname, hlook] at hblook
    cases hblook
    exact hb

theorem restart_loaded (h : u.Loaded) (hr : Restart u u') : u'.Loaded :=
  fun name a ha => h name a ((restart_lookup h hr name a).mp ha).1

/-- Without such names no number of restarts changes an account. -/
theorem steady_of_names (h : u.Loaded)
    (hnames : ∀ name a, u.users.lookup name = some a → ¬ ascii "#" <+: name) : Steady u := by
  intro u' hrun
  have hkeep : u'.Loaded ∧ SameAccounts u u' := by
    induction hrun with
    | refl => exact ⟨h, fun _ => rfl⟩
    | tail _ hstep ih =>
      obtain ⟨hloaded, hsame⟩ := ih
      refine ⟨restart_loaded hloaded hstep, fun name => Option.ext fun a => ?_⟩
      rw [restart_lookup hloaded hstep, hsame name]
      exact and_iff_left_of_imp (hnames name a)
  exact hkeep.2

/-- Such an account is lost at the first restart. -/
theorem not_steady_of_name (h : u.Loaded) {name : Str} {a : UserInfo}
    (ha : u.users.lookup name = some a) (hc : ascii "#" <+: name) : ¬ Steady u := by
  intro hsteady
  have hr : Restart u (.load (readlines (u.str u.users.keys))) := ⟨_, List.Perm.refl _, rfl⟩
  have hsame := hsteady _ (Relation.ReflTransGen.single hr) name
  rw [ha] at hsame
  exact ((restart_lookup h hr name a).mp hsame).2 hc

end Restart

/-- A user has an account exactly if some line stands for it. -/
theorem load_has {lines : List Str} {a : UserInfo} (h : a ∈ lines.filterMap account) :
    ∃ b, (UsersInfo.load lines).users.lookup a.username = some b := by
  rw [load_lookup]
  refine Option.isSome_iff_exists.mp (List.find?_isSome.mpr ⟨a, List.mem_reverse.mpr h, ?_⟩)
  exact decide_eq_true rfl

theorem not_steady_of_hidden {lines : List Str} (hlines : ∀ l ∈ lines, TextLine l) {line : Str}
    (hl : line ∈ lines) (hh : Hidden line) : ¬ Steady (.load lines) := by
  obtain ⟨a, ha, hc⟩ := hh
  obtain ⟨b, hb⟩ := load_has (List.mem_filterMap.mpr ⟨line, hl, ha⟩)
  exact not_steady_of_name (load_loaded hlines) hb hc

/-- The accounts loaded from a file survive every number of restarts exactly if no line of it
hides a comment sign behind blanks in front of an account. -/
theorem passwd_steady_iff {lines : List Str} (hlines : ∀ l ∈ lines, TextLine l) :
    Steady (.load lines) ↔ ∀ l ∈ lines, ¬ Hidden l := by
  constructor
  · exact fun hsteady line hl hh => not_steady_of_hidden hlines hl hh hsteady
  · intro hnone
    refine steady_of_names (load_loaded hlines) fun name a ha hc => ?_
    have hname := (load_loaded hlines name a ha).1
    rw [load_lookup] at ha
    obtain ⟨line, hl, hacc⟩ :=
      List.mem_filterMap.mp (List.mem_reverse.mp (List.mem_of_find?_eq_some ha))
    exact hnone line hl ⟨a, hacc, hname ▸ hc⟩

theorem passwd_steady_padded :
    (∀ l ∈ [ascii " bob : 5:pw \n", ascii "#ann:1:x\n", ascii "bad line"], TextLine l) ∧
      Steady (.load [ascii " bob : 5:pw \n", ascii "#ann:1:x\n", ascii "bad line"]) := by
  have hlines : ∀ l ∈ [ascii " bob : 5:pw \n", ascii "#ann:1:x\n", ascii "bad line"],
      TextLine l := by
    unfold TextLine
    decide
  refine ⟨hlines, (passwd_steady_iff hlines).mpr fun l hl => ?_⟩
  rintro ⟨a, ha, hc⟩
  simp only [List.mem_cons, List.not_mem_nil, or_false] at hl
  rcases hl with rfl | rfl | rfl
  · have : account (ascii " bob : 5:pw \n") = some ⟨5, ascii "bob ", ascii "pw"⟩ := by decide
    rw [this] at ha
    cases ha
    exact absurd hc (by decide)
  · cases ha
  · cases ha

/-- An account that was commented out behind a blank is lost at the restart. -/
theorem passwd_not_steady : ¬ Steady (.load [ascii " #bob:5:pw\n"]) := by
  have hlines : ∀ l ∈ [ascii " #bob:5:pw\n"], TextLine l := by
    unfold TextLine
    decide
  have hacc : account (ascii " #bob:5:pw\n") = some ⟨5, ascii "#bob", ascii "pw"⟩ := by decide
  exact not_steady_of_hidden hlines (List.mem_singleton.mpr rfl) ⟨_, hacc, by decide⟩

/-! ## New users -/

/-- Each call of `adduser` succeeds and assigns a uid that no user had before it. -/
def AddsFresh : UsersInfo → List (List Str) → Prop
  | _, [] => True
  | u, user :: rest => ∃ u' a, u.adduser user = .ok u' ∧
      u'.users.lookup (user.headD []) = some a ∧
      (∀ name b, u.users.lookup name = some b → b.uid ≠ a.uid) ∧ AddsFresh u' rest

/-- The constructor gets one argument more than it takes: no user is ever added. -/
theorem adduser_fails (u : UsersInfo) (user : List Str) : ∃ e, u.adduser user = .error e := by
  unfold UsersInfo.adduser
  by_cases hlen : user.length ≠ 3
  · exact ⟨_, if_pos hlen⟩
  rw [if_neg hlen]
  by_cases hhas : u.hasUser (user.headD []) = true
  · exact ⟨_, if_pos hhas⟩
  rw [if_neg hhas]
  obtain ⟨x, y, z, rfl⟩ := List.length_eq_three.mp (not_not.mp hlen)
  exact ⟨_, rfl⟩

/-- New users get fresh uids exactly where none is added. -/
theorem addsFresh_iff (lines : List Str) (users : List (List Str)) :
    AddsFresh (.load lines) users ↔ users = [] := by
  constructor
  · intro h
    cases users with
    | nil => rfl
    | cons user rest =>
      obtain ⟨u', a, hadd, -⟩ := h
      obtain ⟨e, he⟩ := adduser_fails (.load lines) user
      rw [he] at hadd
      cases hadd
  · rintro rfl
    exact trivial

theorem addsFresh_ann : ¬ AddsFresh (.load [ascii "bob:5:pw\n"])
    [[ascii "ann", ascii "secret", ascii "x"]] := by
  rintro ⟨u', a, hadd, -⟩
  obtain ⟨e, he⟩ := adduser_fails (.load [ascii "bob:5:pw\n"])
    [ascii "ann", ascii "secret", ascii "x"]
  rw [he] at hadd
  cases hadd

end Sbpfs.Cnode.Users
