import Sbpfs.Cnode.Connection
import Sbpfs.Cnode.FieldSpec

/-!
# Who the control node takes a client for

A client sends its name behind `Client_`, through a buffer that has no room for the longest
names, and the control node removes every `Client_` from what it receives.
-/
namespace Sbpfs.Cnode.LoginLaws

open Sbpfs.Lib.Program Sbpfs.Lib.Search Sbpfs.Cfs.Layout
open Sbpfs.Wire.Head Sbpfs.Wire.HeadSpec Sbpfs.Wire.Number Sbpfs.Libc.Request Sbpfs.Libc.RequestSpec
open Sbpfs.Cnode.Message Sbpfs.Cnode.FieldSpec Sbpfs.Cnode.Connection

variable {l : Login} {username password : CStr} {method argc : String} {args : List Str}

/-! ## Removing a prefix everywhere -/

theorem clientPrefix_borderless : Borderless clientPrefix := by decide
theorem clientPrefix_ne : clientPrefix ≠ [] := by decide

/-- The pieces of a list are together as long as the list less its separators. -/
theorem remove_length {old s : Str} (hne : old ≠ []) (h : ¬ Free old s) :
    (remove old s).length < s.length := by
  obtain ⟨p, ps, hsplit, hfree, hjoin⟩ := split_spec hne s
  have hpos := List.length_pos_iff.mpr hne
  have hlen : ∀ (p : Str) (ps : List Str), (List.intercalate old (p :: ps)).length
      = (p :: ps).flatten.length + ps.length * old.length := by
    intro p ps
    induction ps generalizing p with
    | nil => simp
    | cons q ps ih =>
      rw [List.intercalate_cons_cons, List.length_append, List.length_append, ih q]
      simp only [List.flatten_cons, List.length_append, List.length_cons, Nat.succ_mul]
      omega
  have hsome : ps ≠ [] := by
    rintro rfl
    rw [List.intercalate_singleton] at hjoin
    exact h (hjoin ▸ hfree p (List.mem_cons_self ..))
  have hcount : 1 * old.length ≤ ps.length * old.length :=
    Nat.mul_le_mul_right _ (List.length_pos_iff.mpr hsome)
  unfold remove
  rw [hsplit]
  have hs := congrArg List.length hjoin
  rw [hlen p ps] at hs
  omega

/-- Removing `Client_` gives the name back when the name does not hold it. -/
theorem remove_client_iff (name : Str) :
    remove clientPrefix (clientPrefix ++ name) = name ↔ Free clientPrefix name := by
  have hfront : remove clientPrefix (clientPrefix ++ name) = remove clientPrefix name := by
    have h := split_append clientPrefix_ne clientPrefix_borderless [] name
    rw [List.nil_append, split_free clientPrefix_ne (free_nil clientPrefix_ne)] at h
    unfold remove
    rw [h]
    rfl
  rw [hfront]
  constructor
  · intro h
    by_contra hin
    have hlt := remove_length clientPrefix_ne hin
    rw [h] at hlt
    exact Nat.lt_irrefl _ hlt
  · intro h
    unfold remove
    rw [split_free clientPrefix_ne h]
    exact List.append_nil name

/-! ## Reading entries -/

/-- The dictionary after the lines of `es` up to an empty one. -/
def readLines (es : List HeadEntry) (d : Dict) : Option Dict :=
  ((lines es).takeWhile (· ≠ [])).foldlM parseLine d

theorem readLines_cons {e : HeadEntry} {es : List HeadEntry} (hname : NameOk e.name)
    (hv : Free crlf e.value) (d : Dict) : readLines (e :: es) d
      = readLines es (if d.hasKey e.name then d else d ++ [(e.name, e.value)]) := by
  have hlines : lines (e :: es) = (e.name ++ colon ++ e.value) :: lines es := by
    have h := split_entryLine_free hname hv
    simp only [lines, List.flatMap_cons] at h ⊢
    rw [h]
    rfl
  unfold readLines
  rw [hlines, List.takeWhile_cons_of_pos (by simp [colon]), List.foldlM_cons,
    parseLine_field d hname.colon]
  rfl

/-- A field behind fields of other names, all of them single lines. -/
theorem readLines_last {es : List HeadEntry} {k v : Str} (hk : NameOk k) (hv : Free crlf v)
    (hes : ∀ e ∈ es, NameOk e.name ∧ Free crlf e.value ∧ e.name ≠ k) {d : Dict}
    (hd : d.hasKey k = false) :
    ∃ d', readLines (es ++ [⟨k, v⟩]) d = some d' ∧ d'.get k = some v := by
  induction es generalizing d with
  | nil =>
    refine ⟨d ++ [(k, v)], ?_, ?_⟩
    · rw [List.nil_append, readLines_cons (e := ⟨k, v⟩) hk hv]
      dsimp only
      rw [hd]
      rfl
    · rw [get_append_of_not hd]
      simp [Dict.get]
  | cons e es ih =>
    obtain ⟨hname, hvalue, hne⟩ := hes e (List.mem_cons_self ..)
    rw [List.cons_append, readLines_cons hname hvalue]
    apply ih (fun e he => hes e (List.mem_cons_of_mem _ he))
    split
    · exact hd
    · rw [hasKey_append, hd]
      simpa using hne

/-- What is read does not depend on what came behind the end of the head. -/
theorem readFields_received {buffer : Str} (h : ¬ Free headerFlag buffer) (rest : Str) :
    readFields (buffer ++ rest) = readFields buffer := by
  cases hfind : find headerFlag buffer with
  | none => exact absurd ((find_eq_none (by decide)).mp hfind) h
  | some i =>
    have hlen := find_length hfind
    have hlong := find_append_right hfind rest
    unfold readFields splitMessage splitN
    rw [hfind, hlong]
    dsimp only [splitN]
    rw [List.take_append_of_le_length (by omega)]

/-! ## A connection -/

theorem run_client {buffer rest user password : Str} {d : Dict} (hread : readFields buffer = some d)
    (hproto : d.get (ascii "Protocol") = some VERSION)
    (hlen : d.get (ascii "Content-Length") = some (ascii "0"))
    (huser : d.get (ascii "User") = some (clientPrefix ++ user))
    (hpass : d.get (ascii "Password") = some password) :
    run buffer rest = .ok (.client (remove clientPrefix (clientPrefix ++ user)) password d
      (splitMessage buffer).2) := by
  have hzero : pyInt (ascii "0") = some 0 := by decide
  have hmsg : readmsg buffer rest = .ok (d, (splitMessage buffer).2) := by
    unfold readmsg
    rw [hread]
    dsimp only
    rw [hproto, Option.getD_some, if_neg (by simp), hlen]
    dsimp only
    rw [hzero]
    dsimp only
    rw [if_neg (by omega)]
  unfold run
  rw [hmsg]
  show handler d (splitMessage buffer).2 = _
  unfold handler
  rw [huser]
  dsimp only
  rw [if_pos (List.prefix_append _ _), hpass]

/-- A client is taken for the name and password in the fields that were read. -/
theorem run_client_inv {buffer rest u p data : Str} {head : Dict}
    (h : run buffer rest = .ok (.client u p head data)) : readFields buffer = some head ∧
      ∃ user, head.get (ascii "User") = some user ∧ u = remove clientPrefix user ∧
        head.get (ascii "Password") = some p := by
  unfold run at h
  cases hmsg : readmsg buffer rest with
  | error e =>
    rw [hmsg] at h
    cases h
  | ok msg =>
    rw [hmsg] at h
    replace h : handler msg.1 msg.2 = .ok (.client u p head data) := h
    have hread : readFields buffer = some msg.1 := by
      unfold readmsg at hmsg
      cases hfields : readFields buffer with
      | none =>
        rw [hfields] at hmsg
        cases hmsg
      | some d =>
        rw [hfields] at hmsg
        dsimp only at hmsg
        split at hmsg
        · cases hmsg
        split at hmsg
        · split at hmsg
          · cases hmsg
          · split at hmsg
            · split at hmsg <;> cases hmsg
              rfl
            · cases hmsg
              rfl
        · split at hmsg <;> cases hmsg
          rfl
    unfold handler at h
    split at h
    · cases h
    · rename_i user huser
      split at h
      · split at h
        · cases h
        · rename_i password hpass
          cases h
          exact ⟨hread, user, huser, rfl, hpass⟩
      · split at h <;> cases h

/-! ## The fields of a request -/

theorem requestEntries_shape (l : Login) (method argc : String) (args : List Str) :
    requestEntries l method argc args = ⟨USER, clientPrefix ++ bytesOf l.usr⟩ ::
      ⟨PASS, bytesOf l.pass⟩ :: (⟨METHOD, ascii method⟩ :: ⟨ARGC, ascii argc⟩ :: argEntries args
        ++ [⟨CONTENT_LEN, ascii "0"⟩]) := rfl

/-- A login whose name and password are single lines. -/
structure OneLine (l : Login) : Prop where
  usr : Free crlf (bytesOf l.usr)
  pass : Free crlf (bytesOf l.pass)

theorem OneLine.user (h : OneLine l) : Free crlf (clientPrefix ++ bytesOf l.usr) := by
  refine free_append (by decide) h.usr fun hs => ?_
  exact absurd hs.1 (by decide)

/-- What a request begins with. -/
def loginFields (l : Login) : Dict :=
  [(ascii "Protocol", PROTOCOL), (USER, clientPrefix ++ bytesOf l.usr), (PASS, bytesOf l.pass)]

theorem readFields_login (hl : OneLine l) (method argc : String) (args : List Str) :
    readFields (PROTOCOL ++ crlf ++ entryLines (requestEntries l method argc args) ++ crlf)
      = readLines (⟨METHOD, ascii method⟩ :: ⟨ARGC, ascii argc⟩ :: argEntries args
          ++ [⟨CONTENT_LEN, ascii "0"⟩]) (loginFields l) := by
  have huser : NameOk USER := ⟨by decide, by decide⟩
  have hpass : NameOk PASS := ⟨by decide, by decide⟩
  have hnew : Dict.hasKey [(ascii "Protocol", PROTOCOL)] USER = false := by decide
  have hnew' : Dict.hasKey [(ascii "Protocol", PROTOCOL),
      (USER, clientPrefix ++ bytesOf l.usr)] PASS
      = false := by
    have hp : ascii "Protocol" ≠ PASS := by decide
    have hu : USER ≠ PASS := by decide
    simp [Dict.hasKey, hp, hu]
  rw [readFields_request, ← readLines, requestEntries_shape, readLines_cons huser hl.user,
    if_neg (by rw [hnew]; decide), readLines_cons hpass hl.pass]
  dsimp only [List.cons_append, List.nil_append]
  rw [if_neg (by rw [hnew']; decide)]
  rfl

theorem argName_free (i : Nat) : NameOk (argName i) := by
  have hdigit : ∀ (a b : UInt8), isDigit a = false → ∀ s : Str, (∀ c ∈ s, isDigit c = true) →
      Free [a, b] s := by
    intro a b ha s hs hin
    obtain ⟨p, q, rfl⟩ := hin
    have h := hs a (by simp)
    rw [ha] at h
    cases h
  constructor
  · refine free_append (by decide) (hdigit _ _ (by decide) _ numeral_digits) fun h => ?_
    exact absurd h.1 (by decide)
  · refine free_append (by decide) (hdigit _ _ (by decide) _ numeral_digits) fun h => ?_
    exact absurd h.1 (by decide)

theorem argEntries_free (hargs : ∀ a ∈ args, Free crlf a) :
    ∀ e ∈ argEntries args, NameOk e.name ∧ Free crlf e.value ∧ e.name ≠ CONTENT_LEN := by
  intro e he
  obtain ⟨i, hi, rfl⟩ := List.mem_mapIdx.mp he
  refine ⟨argName_free i, hargs _ (List.getElem_mem hi), fun h => ?_⟩
  exact absurd (congrArg List.head? h) (by simp [argName, CONTENT_LEN, ascii])

/-- A request of single lines is read whole. -/
theorem readFields_whole (hl : OneLine l) (hmethod : Free crlf (ascii method))
    (hargc : Free crlf (ascii argc)) (hargs : ∀ a ∈ args, Free crlf a) : ∃ d,
    readFields (PROTOCOL ++ crlf ++ entryLines (requestEntries l method argc args) ++ crlf)
      = some d ∧
      d.get CONTENT_LEN = some (ascii "0") := by
  rw [readFields_login hl]
  refine readLines_last ⟨by decide, by decide⟩ (by decide) (fun e he => ?_) ?_
  · rcases List.mem_cons.mp he with rfl | he
    · exact ⟨⟨(by decide : Free colon METHOD), (by decide : Free crlf METHOD)⟩, hmethod,
        (by decide : METHOD ≠ CONTENT_LEN)⟩
    rcases List.mem_cons.mp he with rfl | he
    · exact ⟨⟨(by decide : Free colon ARGC), (by decide : Free crlf ARGC)⟩, hargc,
        (by decide : ARGC ≠ CONTENT_LEN)⟩
    · exact argEntries_free hargs e he
  · have hp : ascii "Protocol" ≠ CONTENT_LEN := by decide
    have hu : USER ≠ CONTENT_LEN := by decide
    have hw : PASS ≠ CONTENT_LEN := by decide
    simp [loginFields, Dict.hasKey, hp, hu, hw]

/-- Whatever the arguments hold, the name and the password are read first. -/
theorem readFields_kept (hl : OneLine l) {d : Dict}
    (hread : readFields (PROTOCOL ++ crlf ++ entryLines (requestEntries l method argc args) ++ crlf)
      = some d) :
    d.get (ascii "Protocol") = some VERSION ∧ d.get USER = some (clientPrefix ++ bytesOf l.usr) ∧
      d.get PASS = some (bytesOf l.pass) := by
  rw [readFields_login hl] at hread
  have hkept : Kept (loginFields l) d := parseLines_kept hread
  have hp : ascii "Protocol" ≠ USER := by decide
  have hw : ascii "Protocol" ≠ PASS := by decide
  have hu : USER ≠ PASS := by decide
  refine ⟨(hkept _ ?_).2.trans ?_, (hkept _ ?_).2.trans ?_, (hkept _ ?_).2.trans ?_⟩
  · rfl
  · rfl
  · simp [loginFields, Dict.hasKey]
  · simp [loginFields, Dict.get, hp]
  · simp [loginFields, Dict.hasKey]
  · simp [loginFields, Dict.get, hw, hu]

/-! ## Identity -/

/-- The request `r` fits its buffers, and whoever the control node takes the sender for, in
whatever pieces the request arrives, has this name and password. -/
def NotMistaken (username password : CStr) (r : Except Stop (Option Str)) : Prop :=
  ∃ msg, r = .ok (some msg) ∧ ∀ buffer rest, buffer ++ rest = msg → ¬ Free headerFlag buffer →
    ∀ u p head data, run buffer rest = .ok (.client u p head data) →
      u = bytesOf username ∧ p = bytesOf password

/-- The same, and the control node takes the sender for a client. -/
def Identified (username password : CStr) (r : Except Stop (Option Str)) : Prop :=
  ∃ msg, r = .ok (some msg) ∧ ∀ buffer rest, buffer ++ rest = msg → ¬ Free headerFlag buffer →
    ∃ head data, run buffer rest = .ok (.client (bytesOf username) (bytesOf password) head data)

/-- `tran_usr` has room for the name, and the name does not hold `Client_`. -/
def Unaltered (username : CStr) : Prop :=
  username.length < MAX_USERNAME_LEN ∧ Free clientPrefix (bytesOf username)

theorem message_flag (l : Login) (method argc : String) (args : List Str) : ¬ Free headerFlag
    (PROTOCOL ++ crlf ++ entryLines (requestEntries l method argc args) ++ crlf) := by
  intro h
  apply h
  refine ⟨PROTOCOL ++ crlf ++ entryLines (headEntries l method argc ++ argEntries args)
    ++ entryLine ⟨CONTENT_LEN, ascii "0"⟩, [], ?_⟩
  simp [requestEntries, entryLines, headerFlag_eq]

theorem sbpLogin_some (h : sbpLogin username password = some l) :
    l.usr = username ∧ l.pass = password := by
  unfold sbpLogin at h
  split at h
  · cases h
    exact ⟨rfl, rfl⟩
  · cases h

theorem notMistaken (hl : OneLine l) (hun : Unaltered l.usr) (method argc : String)
    (args : List Str) (hlen : args.length ≤ 27) :
    NotMistaken l.usr l.pass (request l method argc args) := by
  obtain ⟨hfit, hfree⟩ := hun
  refine ⟨_, request_msg hfit method argc hlen, ?_⟩
  intro buffer rest hmsg hflag u p head data hrun
  obtain ⟨hread, user, huser, rfl, hpassword⟩ := run_client_inv hrun
  rw [← readFields_received hflag rest, hmsg] at hread
  obtain ⟨-, hu, hp⟩ := readFields_kept hl hread
  rw [show ascii "User" = USER from rfl, hu] at huser
  rw [show ascii "Password" = PASS from rfl, hp] at hpassword
  cases huser
  cases hpassword
  exact ⟨(remove_client_iff _).mpr hfree, rfl⟩

theorem identified_iff (hl : OneLine l) (hmethod : Free crlf (ascii method))
    (hargc : Free crlf (ascii argc)) (hargs : ∀ a ∈ args, Free crlf a) (hlen : args.length ≤ 27) :
    Identified l.usr l.pass (request l method argc args) ↔ Unaltered l.usr := by
  obtain ⟨d, hread, hcontent⟩ := readFields_whole hl hmethod hargc hargs
  obtain ⟨hproto, hu, hp⟩ := readFields_kept hl hread
  have hrun : ∀ buffer rest,
      buffer ++ rest = PROTOCOL ++ crlf ++ entryLines (requestEntries l method argc args) ++ crlf →
      ¬ Free headerFlag buffer → run buffer rest = .ok (.client
        (remove clientPrefix (clientPrefix ++ bytesOf l.usr)) (bytesOf l.pass) d
        (splitMessage buffer).2) := by
    intro buffer rest hmsg hflag
    rw [← hmsg, readFields_received hflag] at hread
    exact run_client hread hproto hcontent hu hp
  constructor
  · rintro ⟨msg, hmsg, hid⟩
    have hfit : Fits l := by
      by_contra hfit
      rw [request_fault hfit] at hmsg
      cases hmsg
    rw [request_msg hfit method argc hlen] at hmsg
    obtain rfl := Option.some.inj (Except.ok.inj hmsg)
    have hflag := message_flag l method argc args
    obtain ⟨head, data, hclient⟩ := hid _ [] (List.append_nil _) hflag
    rw [hrun _ [] (List.append_nil _) hflag] at hclient
    refine ⟨hfit, (remove_client_iff _).mp ?_⟩
    injection hclient with hclient
    injection hclient
  · rintro ⟨hfit, hfree⟩
    refine ⟨_, request_msg hfit method argc hlen, fun buffer rest hmsg hflag =>
      ⟨d, (splitMessage buffer).2, ?_⟩⟩
    rw [hrun buffer rest hmsg hflag, (remove_client_iff _).mpr hfree]

/-- Whoever logged in: with an unaltered name no request is taken for another's, and a request
of single lines is taken for one of that name and password exactly with an unaltered name. -/
theorem request_identifies (h : sbpLogin username password = some l)
    (husr : Free crlf (bytesOf username)) (hpass : Free crlf (bytesOf password))
    (method argc : String) (args : List Str) (hlen : args.length ≤ 27) :
    (Unaltered username → NotMistaken username password (request l method argc args)) ∧
    (Free crlf (ascii method) → Free crlf (ascii argc) → (∀ a ∈ args, Free crlf a) →
      (Identified username password (request l method argc args) ↔ Unaltered username)) := by
  obtain ⟨rfl, rfl⟩ := sbpLogin_some h
  exact ⟨fun hun => notMistaken ⟨husr, hpass⟩ hun method argc args hlen,
    fun hmethod hargc hargs => identified_iff ⟨husr, hpass⟩ hmethod hargc hargs hlen⟩

/-- A directory made by the user `a`. -/
theorem request_identifies_a : ∃ l, sbpLogin (text "a") [] = some l ∧
    Identified (text "a") [] (sbpMkdir l (text "/a")) := by
  have hfree : Free crlf (bytesOf (text "a")) := by decide
  refine ⟨⟨text "a", [], by decide, by decide⟩, rfl, ?_⟩
  refine ((request_identifies rfl hfree (by decide) "MKDIR" "1" [bytesOf (text "/a")]
    (by decide)).2 (by decide) (by decide) (by decide)).mpr ?_
  exact ⟨by decide, by decide⟩

/-- The longest names do not fit, and a name that ends with `Client_` is cut. -/
theorem request_misidentifies :
    (∃ l, sbpLogin (text "aaaaaaaaaaaaaaaa") [] = some l ∧
      sbpMkdir l (text "/a") = .error .fault) ∧
    ∃ l, sbpLogin (text "aClient_") [] = some l ∧
      ¬ Identified (text "aClient_") [] (sbpMkdir l (text "/a")) := by
  constructor
  · refine ⟨⟨text "aaaaaaaaaaaaaaaa", [], by decide, by decide⟩, rfl, request_fault ?_ _ _ _⟩
    exact (by decide : ¬ (text "aaaaaaaaaaaaaaaa").length < MAX_USERNAME_LEN)
  · refine ⟨⟨text "aClient_", [], by decide, by decide⟩, rfl, fun h => ?_⟩
    have hl : OneLine ⟨text "aClient_", [], by decide, by decide⟩ := ⟨by decide, by decide⟩
    have hun := (identified_iff hl (by decide) (by decide) (by decide) (by decide)).mp h
    exact absurd hun.2 (by decide)

end Sbpfs.Cnode.LoginLaws
