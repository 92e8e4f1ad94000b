import Codex.Data.ExceptFold
import Codex.Data.Quoting
import Codex.Text.Basic

namespace Codex.Provision

open Text List Data

/-!
# Commands on remote hosts and in containers

A launcher routes a command through hops.  A container gets its arguments as they are; a host gets
one text that its shell cuts into words, so that the arguments are quoted.

* `RemoteLauncher.id`, `RemoteLauncher.fromId` — launchers as texts;
* `RemoteLauncher.execArgv` — the arguments that start a command behind all hops;
* `enterHop`, `passHops` — what `ssh`, `docker` and a shell make of arguments;
* `fromId_identifies` — the launchers with valid hops and their texts;
* `passHops_execArgv` — the command arrives as it was given.
-/

/-! ### Hops -/

inductive Hop
  | docker (container : Text)
  | ssh (host : Text)

def Hop.idSegment : Hop → Text
  | .docker container => "docker:" ++ container
  | .ssh host => "ssh:" ++ host

def maxHopValueLen : ℕ := 256

/-- `char::is_control`. -/
def isControl (c : Char) : Bool := c.toNat < 32 || (127 ≤ c.toNat && c.toNat < 160)

def validateHopValue (s : Text) : Except Text Unit :=
  if s.isEmpty then .error "hop value must not be empty"
  else if maxHopValueLen < (String.ofList s).utf8ByteSize then
    .error ("hop value length " ++ Nat.toDigits 10 (String.ofList s).utf8ByteSize ++
      " exceeds maximum " ++ Nat.toDigits 10 maxHopValueLen)
  else if s.head? = some '-' then
    .error ("hop value `" ++ s ++ "` must not start with `-` (would be interpreted as a flag)")
  else if s.contains '>' then
    .error ("hop value `" ++ s ++ "` must not contain `>` (reserved as the id segment separator)")
  else if s.any fun c => isControl c || isWhitespace c then
    .error ("hop value `" ++ s ++ "` must not contain whitespace or control characters")
  else .ok ()

def Hop.value : Hop → Text
  | .docker container => container
  | .ssh host => host

/-! ### Launchers -/

structure RemoteLauncher where
  hops : List Hop

namespace RemoteLauncher

def id (launcher : RemoteLauncher) : Text := ['>'].intercalate (launcher.hops.map (·.idSegment))

/-- A segment of the text of a launcher. -/
def parseSegment (id seg : Text) : Except Text Hop :=
  if !seg.contains ':' then
    .error ("launcher id segment `" ++ seg ++ "` is missing a `:` separator")
  else
    let kind := seg.takeWhile (· ≠ ':')
    let value := seg.drop (kind.length + 1)
    if value.isEmpty then
      .error ("launcher id segment `" ++ seg ++ "` has an empty value after `:`")
    else do
      validateHopValue value
      if kind = "ssh" then .ok (.ssh value)
      else if kind = "docker" then .ok (.docker value)
      else .error ("unknown hop type `" ++ kind ++ "` in launcher id `" ++ id ++
        "`; valid types are `ssh`, `docker`")

def fromId (id : Text) : Except Text RemoteLauncher :=
  if id.isEmpty then .error "launcher id must not be empty"
  else do
    let hops ← (id.splitOn '>').mapM (parseSegment id)
    .ok ⟨hops⟩

end RemoteLauncher

/-! ### Arguments -/

/-- Single quotes around a text, with every quote in it behind a backslash and outside of them. -/
def posixSingleQuote (s : Text) : Text :=
  '\'' :: (s.flatMap fun c => if c = '\'' then "'\\''" else [c]) ++ ['\'']

def shellJoin (tokens : List Text) : Text := [' '].intercalate (tokens.map posixSingleQuote)

def sshHardeningFlags : List Text := ["-T", "-q", "-o", "BatchMode=yes", "-o",
    "StrictHostKeyChecking=accept-new", "-o", "LogLevel=ERROR", "-o",
    "ConnectTimeout=20", "-o", "ServerAliveInterval=15", "-o", "ServerAliveCountMax=2"]

/-- The arguments that start a command behind a hop. -/
def wrapHop (tokens : List Text) : Hop → List Text
  | .docker container =>
    ["docker".toList, "exec".toList, "-i".toList, "--".toList, container] ++ tokens
  | .ssh host => "ssh".toList :: sshHardeningFlags ++ ["--".toList, host] ++ [shellJoin tokens]

/-- From the innermost hop to the outermost. -/
def foldHops (hops : List Hop) (innerTokens : List Text) : List Text :=
  hops.reverse.foldl wrapHop innerTokens

variable (launcher : RemoteLauncher)

def RemoteLauncher.execArgv (inner : List Text) : List Text := foldHops launcher.hops inner

/-! ### What the programs make of their arguments -/

/-- What has a meaning of its own for a POSIX shell. -/
def posixLexis : Data.Lexis where
  isBlank c := c = ' ' || c = '\t'
  isSpecial c := "\n|&;<>()$`*?[#~=%!\x7b\x7d".toList.contains c
  isExpansion c := c = '$' || c = '`'

/-- A simple command of a POSIX shell. -/
def shellWords (command : Text) : Option (List Text) := scanWords posixLexis .plain none command

/-- The arguments of `ssh` behind its options.  An option `-o` has a value. -/
def skipSshOptions : List Text → Option (List Text)
  | [] => none
  | option :: rest =>
    if option = "--" then some rest
    else if option = "-o" then
      match rest with
      | [] => none
      | _ :: rest => skipSshOptions rest
    else if option = "-T" ∨ option = "-q" then skipSshOptions rest
    else none

/-- `ssh` gives its last argument to a shell, and takes it for an option if it begins like one. -/
def enterSsh (args : List Text) : Option (Hop × List Text) :=
  match skipSshOptions args with
  | some [host, command] =>
    if command.head? = some '-' then none
    else (shellWords command).map fun words => (.ssh host, words)
  | _ => none

/-- `docker exec` starts its arguments directly. -/
def enterDocker (args : List Text) : Option (Hop × List Text) :=
  match args with
  | exec :: interactive :: endOfOptions :: container :: command :: rest =>
    if exec = "exec" ∧ interactive = "-i" ∧ endOfOptions = "--" then
      some (.docker container, command :: rest)
    else none
  | _ => none

/-- Where a program takes a command, and the arguments it starts there. -/
def enterHop (argv : List Text) : Option (Hop × List Text) :=
  match argv with
  | [] => none
  | program :: args =>
    if program = "ssh" then enterSsh args
    else if program = "docker" then enterDocker args
    else none

/-- Follow a command through a number of hops: the hops, and the arguments behind them. -/
def passHops : ℕ → List Text → Option (List Hop × List Text)
  | 0, argv => if argv = [] then none else some ([], argv)
  | n + 1, argv => do
    let (hop, inner) ← enterHop argv
    let (hops, tokens) ← passHops n inner
    some (hop :: hops, tokens)

/-! ### The text of a launcher -/

theorem notMem_of_validateHopValue {s : Text} (h : validateHopValue s = .ok ()) : '>' ∉ s := by
  unfold validateHopValue at h
  split_ifs at h with _ _ _ hcontains
  exact fun hmem => hcontains (contains_iff_mem.mpr hmem)

open RemoteLauncher (parseSegment fromId)

theorem parseSegment_append (id : Text) {kind value : Text} (hkind : ':' ∉ kind) {hop : Hop} :
    parseSegment id (kind ++ ':' :: value) = .ok hop ↔
      validateHopValue value = .ok () ∧
        (kind = "ssh" ∧ hop = .ssh value ∨ kind = "docker" ∧ hop = .docker value) := by
  have hcontains : (kind ++ ':' :: value).contains ':' := by
    rw [contains_iff_mem]
    exact mem_append_right _ mem_cons_self
  have htake : (kind ++ ':' :: value).takeWhile (· ≠ ':') = kind := by
    rw [takeWhile_append_of_pos (fun c hc => decide_eq_true (ne_of_mem_of_not_mem hc hkind))]
    simp
  have hdrop : (kind ++ ':' :: value).drop (kind.length + 1) = value := by
    rw [drop_append, drop_eq_nil_of_le (Nat.le_succ _), Nat.add_sub_cancel_left]
    rfl
  unfold parseSegment
  dsimp only
  rw [htake, hdrop, hcontains]
  cases value with
  | nil => exact iff_of_false nofun fun h => nomatch h.1
  | cons c value =>
    refine check_bind_eq_ok.trans (and_congr_right fun _ => ⟨fun h => ?_, ?_⟩)
    · split_ifs at h with hssh hdocker <;> cases h
      · exact .inl ⟨hssh, rfl⟩
      · exact .inr ⟨hdocker, rfl⟩
    · rintro (⟨rfl, rfl⟩ | ⟨rfl, rfl⟩) <;> rfl

theorem parseSegment_eq_ok {id seg : Text} {hop : Hop} :
    parseSegment id seg = .ok hop ↔
      hop.idSegment = seg ∧ validateHopValue hop.value = .ok () := by
  constructor
  · intro h
    by_cases hcolon : ':' ∈ seg
    · obtain ⟨kind, value, rfl, hkind⟩ := eq_append_cons_of_mem hcolon
      obtain ⟨hvalid, ⟨rfl, rfl⟩ | ⟨rfl, rfl⟩⟩ := (parseSegment_append id hkind).mp h
      · exact ⟨rfl, hvalid⟩
      · exact ⟨rfl, hvalid⟩
    · rw [parseSegment, if_pos (by simpa using hcolon)] at h
      cases h
  · rintro ⟨rfl, hvalid⟩
    cases hop with
    | docker container =>
      exact (parseSegment_append id (by decide : ':' ∉ "docker".toList)).mpr
        ⟨hvalid, .inr ⟨rfl, rfl⟩⟩
    | ssh host =>
      exact (parseSegment_append id (by decide : ':' ∉ "ssh".toList)).mpr ⟨hvalid, .inl ⟨rfl, rfl⟩⟩

/-- The launchers that have a text. -/
def RemoteLauncher.Valid : Prop :=
  launcher.hops ≠ [] ∧ ∀ hop ∈ launcher.hops, validateHopValue hop.value = .ok ()

variable {launcher : RemoteLauncher}

theorem RemoteLauncher.Valid.splitOn_id (h : launcher.Valid) :
    launcher.id.splitOn '>' = launcher.hops.map (·.idSegment) := by
  refine splitOn_intercalate '>' (fun segment hsegment => ?_) (by simpa using h.1)
  obtain ⟨hop, hhop, rfl⟩ := mem_map.mp hsegment
  have hvalue := notMem_of_validateHopValue (h.2 hop hhop)
  cases hop with
  | docker container =>
    exact fun hmem => (mem_append.mp hmem).elim (by decide) hvalue
  | ssh host => exact fun hmem => (mem_append.mp hmem).elim (by decide) hvalue

theorem mapM_parseSegment_eq_ok {id : Text} {segments : List Text} {hops : List Hop} :
    segments.mapM (parseSegment id) = .ok hops ↔
      hops.map (·.idSegment) = segments ∧
        ∀ hop ∈ hops, validateHopValue hop.value = .ok () := by
  constructor
  · intro h
    refine ⟨?_, fun hop hhop => ?_⟩
    · have hsegments := map_eq_of_mapM
        (fun _ _ h => (parseSegment_eq_ok.mp h).1.symm) h
      rw [← hsegments, map_id']
    · obtain ⟨segment, -, hsegment⟩ := exists_of_mem_mapM h hhop
      exact (parseSegment_eq_ok.mp hsegment).2
  · rintro ⟨rfl, hvalid⟩
    induction hops with
    | nil => rfl
    | cons hop hops ih =>
      rw [forall_mem_cons] at hvalid
      rw [map_cons, mapM_cons, parseSegment_eq_ok.mpr ⟨rfl, hvalid.1⟩, ih hvalid.2]
      rfl

theorem fromId_eq_ok_iff {s : Text} :
    fromId s = .ok launcher ↔ launcher.Valid ∧ launcher.id = s := by
  have hfromId : fromId s = .ok launcher ↔
      (s.splitOn '>').mapM (parseSegment s) = .ok launcher.hops := by
    cases s with
    | nil => exact iff_of_false nofun nofun
    | cons c s =>
      refine bind_eq_ok.trans ⟨?_, fun h => ⟨_, h, rfl⟩⟩
      rintro ⟨hops, h, heq⟩
      cases heq
      exact h
  rw [hfromId, mapM_parseSegment_eq_ok]
  constructor
  · rintro ⟨hsegments, hvalid⟩
    refine ⟨⟨fun hnil => ?_, hvalid⟩, ?_⟩
    · rw [hnil] at hsegments
      exact splitOn_ne_nil '>' s hsegments.symm
    · rw [RemoteLauncher.id, hsegments]
      exact intercalate_splitOn '>'
  · rintro ⟨h, rfl⟩
    exact ⟨h.splitOn_id.symm, h.2⟩

/-- **The text of a launcher** is read as the launcher, and no other text is.  So different
    launchers have different texts. -/
theorem fromId_identifies :
    (∀ s launcher, RemoteLauncher.fromId s = .ok launcher ↔ launcher.Valid ∧ launcher.id = s) ∧
      ∀ launcher other : RemoteLauncher, launcher.Valid → other.Valid → launcher.id = other.id →
        launcher = other := by
  refine ⟨fun _ _ => fromId_eq_ok_iff, fun launcher other h hother heq => ?_⟩
  have hread := fromId_eq_ok_iff.mpr ⟨h, heq⟩
  rw [fromId_eq_ok_iff.mpr ⟨hother, rfl⟩] at hread
  exact (Except.ok.inj hread).symm

/-! ### The command arrives as it was given -/

/-- Inside quotes, a text with its quotes escaped is read as it was. -/
theorem scanWords_escape (lexis : Data.Lexis) (s word rest : Text) :
    scanWords lexis .single (some word)
        ((s.flatMap fun c => if c = '\'' then "'\\''" else [c]) ++ rest) =
      scanWords lexis .single (some (word ++ s)) rest := by
  induction s generalizing word with
  | nil => rw [append_nil]; rfl
  | cons c s ih =>
    have hstep : scanWords lexis .single (some word)
          ((if c = '\'' then "'\\''".toList else [c]) ++
            ((s.flatMap fun c => if c = '\'' then "'\\''" else [c]) ++ rest)) =
        scanWords lexis .single (some (word ++ [c]))
          ((s.flatMap fun c => if c = '\'' then "'\\''" else [c]) ++ rest) := by
      split_ifs with hquote
      · -- out of the quotes, an escaped quote, and into the quotes again
        rw [hquote]
        exact (scanWords_single_quote _ _).trans
          ((scanWords_escaped_quote _ _).trans (scanWords_quote _ _))
      · exact scanWords_single_cons hquote _ _
    rw [flatMap_cons, append_assoc, hstep, ih, append_assoc, singleton_append]

theorem scanWords_posixSingleQuote (lexis : Data.Lexis) (word : Option Text) (s rest : Text) :
    scanWords lexis .plain word (posixSingleQuote s ++ rest) =
      scanWords lexis .plain (some (word.getD [] ++ s)) rest := by
  rw [posixSingleQuote, append_assoc, cons_append, scanWords_quote, scanWords_escape]
  exact scanWords_single_quote _ _

/-- **A shell reads the tokens that were joined.** -/
theorem shellWords_shellJoin (tokens : List Text) :
    shellWords (shellJoin tokens) = some tokens := by
  unfold shellWords shellJoin
  induction tokens with
  | nil => rfl
  | cons token tokens ih =>
    have hquote := scanWords_posixSingleQuote posixLexis none token
    rw [map_cons]
    cases tokens with
    | nil =>
      have hlast := hquote []
      rw [append_nil] at hlast
      rw [map_nil, intercalate_singleton, hlast]
      rfl
    | cons next tokens =>
      rw [map_cons, intercalate_cons_cons, append_assoc, hquote]
      rw [map_cons] at ih
      rw [singleton_append, scanWords_blank rfl, ih]
      rfl

variable {tokens : List Text}

theorem head?_shellJoin (hne : tokens ≠ []) : (shellJoin tokens).head? = some '\'' := by
  obtain ⟨token, tokens, rfl⟩ := exists_cons_of_ne_nil hne
  cases tokens <;> rfl

theorem enterHop_wrapHop (hne : tokens ≠ []) (hop : Hop) :
    enterHop (wrapHop tokens hop) = some (hop, tokens) := by
  cases hop with
  | docker container =>
    obtain ⟨token, tokens, rfl⟩ := exists_cons_of_ne_nil hne
    rfl
  | ssh host =>
    have hskip : skipSshOptions (sshHardeningFlags ++ ["--".toList, host] ++ [shellJoin tokens]) =
        some [host, shellJoin tokens] := rfl
    have hhead : (shellJoin tokens).head? ≠ some '-' := by
      rw [head?_shellJoin hne]
      decide
    show enterSsh (sshHardeningFlags ++ ["--".toList, host] ++ [shellJoin tokens]) = _
    rw [enterSsh, hskip]
    dsimp only
    rw [if_neg hhead, shellWords_shellJoin]
    rfl

theorem foldHops_cons (hop : Hop) (hops : List Hop) (tokens : List Text) :
    foldHops (hop :: hops) tokens = wrapHop (foldHops hops tokens) hop := by
  rw [foldHops, reverse_cons, foldl_append]
  rfl

theorem foldHops_ne_nil (hops : List Hop) (hne : tokens ≠ []) : foldHops hops tokens ≠ [] := by
  cases hops with
  | nil => exact hne
  | cons hop hops =>
    rw [foldHops_cons]
    cases hop <;> exact cons_ne_nil _ _

theorem passHops_foldHops (hops : List Hop) (hne : tokens ≠ []) :
    passHops hops.length (foldHops hops tokens) = some (hops, tokens) := by
  induction hops with
  | nil => exact if_neg hne
  | cons hop hops ih =>
    rw [length_cons, foldHops_cons, passHops, enterHop_wrapHop (foldHops_ne_nil hops hne)]
    dsimp only [Option.bind_eq_bind, Option.bind_some]
    rw [ih]
    rfl

/-- **The command arrives as it was given**, through the hops in their order. -/
theorem passHops_execArgv (launcher : RemoteLauncher) (tokens : List Text) (hne : tokens ≠ []) :
    passHops launcher.hops.length (launcher.execArgv tokens) = some (launcher.hops, tokens) :=
  passHops_foldHops launcher.hops hne

theorem passHops_execArgv_quotes :
    passHops 3 ((RemoteLauncher.mk [.ssh "a".toList, .docker "b".toList, .ssh "c".toList]).execArgv
        ["it's".toList, "$x\n\\".toList]) =
      some ([.ssh "a".toList, .docker "b".toList, .ssh "c".toList],
        ["it's".toList, "$x\n\\".toList]) :=
  passHops_execArgv ⟨[.ssh "a".toList, .docker "b".toList, .ssh "c".toList]⟩
    ["it's".toList, "$x\n\\".toList] (cons_ne_nil _ _)

end Codex.Provision
