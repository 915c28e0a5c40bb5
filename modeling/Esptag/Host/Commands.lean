/-
The host scripts as commands: `gen_seed.main`, `derive_keys.main` and `fetch_reports.main` up to its
key pairs, over the files, the standard output and an operating system any of whose calls may fail.
What they write, which files they touch, and with what permissions.
-/
import Esptag.Host.Retention

namespace Esptag

open Octets Crypto

/-! ## The shell -/

/-- A file: who may read and write it, and its content. -/
structure File where
  mode : BitVec 9
  content : List UInt8
  deriving DecidableEq

/-- How a call of the operating system turns out; a write that fails may come after the file was
opened, and after some of the bytes were written. -/
inductive IoFate where
  | ok
  | fails (opened : Bool) (written : Nat)
  deriving DecidableEq, Repr

/-- What the commands run in. -/
structure Shell where
  files : List Char → Option File
  stdout : List UInt8
  stderr : List Char
  umask : BitVec 9
  sched : Sched IoFate

namespace Shell

def tick (sh : Shell) : Shell := { sh with sched := sh.sched.skip 1 }

/-- `os.open(path, os.O_WRONLY | os.O_CREAT | os.O_TRUNC, 0o600)` and a write: the mode is that of a
new file only. -/
def put (sh : Shell) (path : List Char) (content : List UInt8) : Shell :=
  { sh with files := Function.update sh.files path
              (some ⟨((sh.files path).map File.mode).getD (0o600 &&& ~~~sh.umask), content⟩) }

end Shell

/-- How a command ends early: as one of the functions it calls, by an exception of the operating
system or of decoding a file, or with one of `gen_seed.main`'s own texts. -/
inductive CommandExit where
  | py (e : PyError)
  | osError
  | unicodeDecodeError
  /-- `empty passphrase` -/
  | emptyPassphrase
  /-- `--salt only applies to passphrase-derived seeds` -/
  | saltWithoutPassphrase
  deriving DecidableEq

/-- A command. -/
abbrev CommandM := Act CommandExit Shell

/-- A computation that touches nothing. -/
def exits {α : Type} : Except CommandExit α → CommandM α
  | .ok a => pure a
  | .error e => Act.stop e

/-- A call of a function. -/
def py {α : Type} (x : PyM α) : CommandM α := exits (x.mapError .py)

/-- `open(path, "rb").read()`. -/
def readBytes (path : List Char) : CommandM (List UInt8) where
  run sh := match sh.sched.now, sh.files path with
    | .ok, some f => (.ok f.content, sh.tick)
    | _, _ => (.error .osError, sh.tick)

/-- `path.read_text()`. -/
def readText (path : List Char) : CommandM (List Char) := do
  let raw ← readBytes path
  match Text.decodeUtf8 raw with
  | some text => return Text.universalNewlines text
  | none => Act.stop .unicodeDecodeError

/-- `derive_keys.write_output`, which `gen_seed.main` spells out. -/
def writeOutput (path content : List Char) : CommandM Unit where
  run sh :=
    let data := Text.utf8 content
    if path = "-".toList then
      match sh.sched.now with
      | .ok => (.ok (), { sh.tick with stdout := sh.stdout ++ data })
      | .fails _ written => (.error .osError, { sh.tick with stdout := sh.stdout ++ data.take written })
    else
      match sh.sched.now with
      | .ok => (.ok (), { sh.tick.put path data with stderr := sh.stderr ++ "wrote ".toList ++ path ++ ['\n'] })
      | .fails opened written =>
        (.error .osError, if opened then sh.tick.put path (data.take written) else sh.tick)

/-! ## The commands -/

section

variable (hmac : List UInt8 → List UInt8 → Bytes hashLen)

namespace GenSeed

/-- The arguments; the parser refuses both kinds of passphrase at once. -/
structure Args where
  output : List Char
  passphrase : Option (List Char) := none
  passphraseStdin : Bool := false
  salt : Option (List Char) := none

/-- `DEFAULT_SALT`. -/
def defaultSalt : List UInt8 := Text.ascii "esptag master seed v1".toList

/-- `hkdf_extract`. -/
def hkdfExtract (salt ikm : List UInt8) : Bytes EsptagConst.seedLen := hmac salt ikm

/-- The seed of `main`; `typed` is the answer to the prompt, `random` are the bytes of `os.urandom`. -/
def seedOf (args : Args) (typed : List Char) (random : Bytes EsptagConst.seedLen) :
    Except CommandExit (Bytes EsptagConst.seedLen) :=
  if args.passphrase ≠ none ∨ args.passphraseStdin then
    let passphrase := if args.passphraseStdin then typed else args.passphrase.getD []
    if passphrase = [] then .error .emptyPassphrase
    else
      let salt := match args.salt with
        | some salt => Text.utf8 salt
        | none => defaultSalt
      .ok (hkdfExtract hmac salt (Text.utf8 passphrase))
  else if args.salt ≠ none then .error .saltWithoutPassphrase
  else .ok random

/-- `gen_seed.main`. -/
def main (args : Args) (typed : List Char) (random : Bytes EsptagConst.seedLen) : CommandM Unit := do
  let seed ← exits (seedOf hmac args typed random)
  writeOutput args.output (line seed.val)

end GenSeed

namespace DeriveKeys

/-- The arguments. -/
structure Args where
  seed : List Char
  nvs : List Char
  keys : List Char

/-- The secrets of `main`. -/
def rootsOf (args : Args) : CommandM (List UInt8 × List UInt8) := do
  let raw ← readBytes args.seed
  let seed ← py (loadSeed args.seed raw)
  py (deriveRoots hmac seed)

/-- `derive_keys.main`. -/
def main (args : Args) : CommandM Unit := do
  let (d0, sk0) ← rootsOf hmac args
  writeOutput args.nvs (buildNvsCsv d0 sk0)
  writeOutput args.keys (buildKeysFile d0 sk0)

end DeriveKeys

end

/-- `fetch_reports.main`, up to the epochs and scalars of the key pairs it asks for. -/
def FetchReports.main (sha256 : List UInt8 → Bytes hashLen) (args : Args) : CommandM (List (Nat × List UInt8)) := do
  let count ← py (epochCount args)
  let text ← readText args.seed
  let (d0, sk0) ← py (loadSeed args.seed text)
  py (deriveEpochKeys sha256 d0 sk0 args.start.toNat count.toNat)

/-! ## What a command leaves -/

/-- No file is gone, a file that was there has its mode, and a new one can be read and written by its
owner at most. -/
structure Shell.Guards (sh sh' : Shell) : Prop where
  umask : sh'.umask = sh.umask
  kept : ∀ p f, sh.files p = some f → ∃ f', sh'.files p = some f' ∧ f'.mode = f.mode
  fresh : ∀ p f', sh.files p = none → sh'.files p = some f' → f'.mode = 0o600 &&& ~~~sh.umask

/-- What a command with the outputs `paths` leaves: it touches nothing else, and where it stops for
another reason than the operating system it has touched nothing at all. -/
structure Writes (paths : List (List Char)) (sh : Shell) (rc : Except CommandExit Unit) (sh' : Shell) : Prop where
  guards : sh.Guards sh'
  others : ∀ p, p ∉ paths → sh'.files p = sh.files p
  dash : sh'.files "-".toList = sh.files "-".toList
  stdout : "-".toList ∉ paths → sh'.stdout = sh.stdout
  clean : ∀ e, rc = .error e → e ≠ .osError → sh'.files = sh.files ∧ sh'.stdout = sh.stdout

/-- What a write of `content` to `path` prints. -/
def toStdout (path content : List Char) : List UInt8 := if path = "-".toList then Text.utf8 content else []

/-- What a write to `path` that returned tells of it. -/
def toStderr (path : List Char) : List Char :=
  if path = "-".toList then [] else "wrote ".toList ++ path ++ ['\n']

/-- What a command has added to its two streams: `out` and `err`. -/
structure Shell.Prints (sh sh' : Shell) (out : List UInt8) (err : List Char) : Prop where
  stdout : sh'.stdout = sh.stdout ++ out
  stderr : sh'.stderr = sh.stderr ++ err

section

variable {sh sh' sh'' : Shell}

theorem Shell.Prints.trans {out out' : List UInt8} {err err' : List Char} (h : sh.Prints sh' out err)
    (h' : sh'.Prints sh'' out' err') : sh.Prints sh'' (out ++ out') (err ++ err') :=
  ⟨by rw [h'.stdout, h.stdout, List.append_assoc], by rw [h'.stderr, h.stderr, List.append_assoc]⟩

theorem toStdout_dash (content : List Char) : toStdout "-".toList content = Text.utf8 content := if_pos rfl

theorem toStdout_file {path : List Char} (hp : path ≠ "-".toList) (content : List Char) :
    toStdout path content = [] := if_neg hp

theorem toStderr_dash : toStderr "-".toList = [] := if_pos rfl

theorem toStderr_file {path : List Char} (hp : path ≠ "-".toList) :
    toStderr path = "wrote ".toList ++ path ++ ['\n'] := if_neg hp

theorem Shell.Guards.of_eq (hu : sh'.umask = sh.umask) (hf : sh'.files = sh.files) : sh.Guards sh' := by
  refine ⟨hu, fun p f h => ⟨f, by rw [hf]; exact h, rfl⟩, fun p f h h' => ?_⟩
  rw [hf, h] at h'
  cases h'

theorem Shell.Guards.trans (h : sh.Guards sh') (h' : sh'.Guards sh'') : sh.Guards sh'' := by
  refine ⟨h'.umask.trans h.umask, fun p f hf => ?_, fun p f'' hf hf'' => ?_⟩
  · obtain ⟨f', hf', hmode⟩ := h.kept p f hf
    obtain ⟨f'', hf'', hmode'⟩ := h'.kept p f' hf'
    exact ⟨f'', hf'', hmode'.trans hmode⟩
  · cases hp : sh'.files p with
    | none => rw [h'.fresh p f'' hp hf'', h.umask]
    | some f' =>
      obtain ⟨f₂, hf₂, hmode⟩ := h'.kept p f' hp
      obtain rfl : f₂ = f'' := Option.some.inj (hf₂.symm.trans hf'')
      rw [hmode, h.fresh p f' hf hp]

theorem put_self (sh : Shell) (path : List Char) (data : List UInt8) : (sh.put path data).files path =
    some ⟨((sh.files path).map File.mode).getD (0o600 &&& ~~~sh.umask), data⟩ := Function.update_self ..

theorem put_of_ne (sh : Shell) {path p : List Char} (h : p ≠ path) (data : List UInt8) :
    (sh.put path data).files p = sh.files p := Function.update_of_ne h _ _

theorem guards_put (sh : Shell) (path : List Char) (data : List UInt8) : sh.Guards (sh.put path data) := by
  refine ⟨rfl, fun p f hf => ?_, fun p f' hf hf' => ?_⟩
  · by_cases hp : p = path
    · subst hp
      exact ⟨_, put_self sh p data, by rw [hf]; rfl⟩
    · exact ⟨f, (put_of_ne sh hp data).trans hf, rfl⟩
  · by_cases hp : p = path
    · subst hp
      rw [put_self, hf] at hf'
      exact congrArg File.mode (Option.some.inj hf').symm
    · rw [put_of_ne sh hp, hf] at hf'
      cases hf'

/-- A command that changes nothing. -/
theorem Writes.nothing {paths : List (List Char)} {rc : Except CommandExit Unit} (hu : sh'.umask = sh.umask)
    (hf : sh'.files = sh.files) (hs : sh'.stdout = sh.stdout) : Writes paths sh rc sh' :=
  ⟨.of_eq hu hf, fun _ _ => congrFun hf _, congrFun hf _, fun _ => hs, fun _ _ _ => ⟨hf, hs⟩⟩

/-- One write after others, which returned. -/
theorem Writes.append {paths paths' : List (List Char)} {rc : Except CommandExit Unit}
    (h : Writes paths sh (.ok ()) sh') (h' : Writes paths' sh' rc sh'') (hos : ∀ e, rc = .error e → e = .osError) :
    Writes (paths ++ paths') sh rc sh'' where
  guards := h.guards.trans h'.guards
  others := fun p hp => by
    rw [List.mem_append, not_or] at hp
    exact (h'.others p hp.2).trans (h.others p hp.1)
  dash := h'.dash.trans h.dash
  stdout := fun hp => by
    rw [List.mem_append, not_or] at hp
    exact (h'.stdout hp.2).trans (h.stdout hp.1)
  clean := fun e he hne => absurd (hos e he) hne

/-- The file at `path`, where it is one, holds `content`. -/
def Shell.Holds (sh : Shell) (path content : List Char) : Prop :=
  path ≠ "-".toList → ∃ f, sh.files path = some f ∧ f.content = Text.utf8 content

/-- What `write_output` does. -/
structure WriteSpec (path content : List Char) (sh : Shell) (rc : Except CommandExit Unit) (sh' : Shell) : Prop where
  writes : Writes [path] sh rc sh'
  os : ∀ e, rc = .error e → e = .osError
  returns : rc = .ok () ↔ sh.sched.now = .ok
  sched : sh'.sched = sh.sched.skip 1
  ok : rc = .ok () → sh'.Holds path content
  prints : rc = .ok () → sh.Prints sh' (toStdout path content) (toStderr path)
  partly : rc ≠ .ok () → ∃ out, out <+: toStdout path content ∧ sh.Prints sh' out []

/-- A file was written, in part or as a whole. -/
theorem Writes.put {path : List Char} {rc : Except CommandExit Unit} (hp : path ≠ "-".toList) (data : List UInt8)
    (hos : ∀ e, rc = .error e → e = .osError) (hu : sh'.umask = sh.umask) (hs : sh'.stdout = sh.stdout)
    (hf : sh'.files = (sh.put path data).files) : Writes [path] sh rc sh' where
  guards := (guards_put sh path data).trans (.of_eq hu hf)
  others := fun p hne => by rw [hf, put_of_ne sh (List.ne_of_not_mem_cons hne)]
  dash := by rw [hf, put_of_ne sh hp.symm]
  stdout := fun _ => hs
  clean := fun e he hne => absurd (hos e he) hne

theorem writeOutput_spec (path content : List Char) (sh : Shell) :
    let r := (writeOutput path content).run sh
    WriteSpec path content sh r.1 r.2 := by
  have hos : ∀ e, (.error .osError : Except CommandExit Unit) = .error e → e = .osError := by
    rintro e ⟨⟩
    rfl
  intro r
  have hr : r = (writeOutput path content).run sh := rfl
  clear_value r
  unfold writeOutput at hr
  by_cases hp : path = "-".toList
  · -- to the standard output
    subst hp
    have hout : ∀ (rc : Except CommandExit Unit) (sh' : Shell), sh'.umask = sh.umask → sh'.files = sh.files →
        (∀ e, rc = .error e → e = .osError) → Writes ["-".toList] sh rc sh' := by
      intro rc sh' hu hf hos
      exact ⟨.of_eq hu hf, fun _ _ => congrFun hf _, congrFun hf _, fun h => absurd (List.mem_cons_self ..) h,
        fun e he hne => absurd (hos e he) hne⟩
    simp only [if_true] at hr
    cases hnow : sh.sched.now with
    | ok =>
      simp only [hnow] at hr
      subst hr
      exact ⟨hout _ _ rfl rfl nofun, nofun, iff_of_true rfl hnow, rfl, fun _ h => absurd rfl h,
        fun _ => ⟨by rw [toStdout_dash], by rw [toStderr_dash, List.append_nil]; rfl⟩, fun h => absurd rfl h⟩
    | fails opened written =>
      simp only [hnow] at hr
      subst hr
      refine ⟨hout _ _ rfl rfl hos, hos, iff_of_false nofun (by simp [hnow]), rfl, nofun, nofun, fun _ => ?_⟩
      exact ⟨_, by rw [toStdout_dash]; exact List.take_prefix written _, rfl, (List.append_nil _).symm⟩
  · -- to a file
    simp only [hp, if_false] at hr
    cases hnow : sh.sched.now with
    | ok =>
      simp only [hnow] at hr
      subst hr
      refine ⟨.put hp (Text.utf8 content) nofun rfl rfl rfl, nofun, iff_of_true rfl hnow, rfl,
        fun _ _ => ⟨_, put_self sh.tick path _, rfl⟩, fun _ => ⟨?_, ?_⟩, fun h => absurd rfl h⟩
      · rw [toStdout_file hp, List.append_nil]
        rfl
      · simp only [toStderr_file hp, List.append_assoc]
    | fails opened written =>
      simp only [hnow] at hr
      subst hr
      refine ⟨?_, hos, iff_of_false nofun (by simp [hnow]), by cases opened <;> rfl, nofun, nofun, fun _ => ?_⟩
      · cases opened with
        | false => exact .nothing rfl rfl rfl
        | true => exact .put hp _ hos rfl rfl rfl
      · refine ⟨[], List.nil_prefix, ?_⟩
        cases opened <;> exact ⟨(List.append_nil _).symm, (List.append_nil _).symm⟩

end

/-! ## What the commands do -/

section

variable {α : Type} {sh : Shell}

theorem wp_exits {x : Except CommandExit α} {Q : α → Shell → Prop} {E : CommandExit → Shell → Prop} :
    (exits x).Wp Q E sh ↔ (∀ a, x = .ok a → Q a sh) ∧ ∀ e, x = .error e → E e sh := by
  cases x with
  | ok a => exact ⟨fun h => ⟨fun _ ha => Except.ok.inj ha ▸ h, nofun⟩, fun h => h.1 a rfl⟩
  | error e => exact ⟨fun h => ⟨nofun, fun _ he => Except.error.inj he ▸ h⟩, fun h => h.2 e rfl⟩

theorem wp_py {x : PyM α} {Q : α → Shell → Prop} {E : CommandExit → Shell → Prop} :
    (py x).Wp Q E sh ↔ (∀ a, x = .ok a → Q a sh) ∧ ∀ e, x = .error e → E (.py e) sh := by
  rw [py, wp_exits]
  cases x <;> simp [Except.mapError]

/-- Reading changes nothing. -/
theorem wp_readBytes {path : List Char} {Q : List UInt8 → Shell → Prop} {E : CommandExit → Shell → Prop}
    (hQ : ∀ f, sh.sched.now = .ok → sh.files path = some f → Q f.content sh.tick)
    (hE : ¬ (sh.sched.now = .ok ∧ ∃ f, sh.files path = some f) → E .osError sh.tick) :
    (readBytes path).Wp Q E sh := by
  have hrun : (readBytes path).run sh = match sh.sched.now, sh.files path with
    | .ok, some f => (.ok f.content, sh.tick)
    | _, _ => (.error .osError, sh.tick) := rfl
  cases hnow : sh.sched.now with
  | fails opened written =>
    rw [hnow] at hrun
    exact (Act.wp_of_error hrun).2 (hE (by simp [hnow]))
  | ok =>
    cases hf : sh.files path with
    | none =>
      rw [hnow, hf] at hrun
      exact (Act.wp_of_error hrun).2 (hE (by simp [hf]))
    | some f =>
      rw [hnow, hf] at hrun
      exact (Act.wp_of_ok hrun).2 (hQ f hnow hf)

end

theorem WriteSpec.wp {path content : List Char} {sh : Shell} {Q : Unit → Shell → Prop}
    {E : CommandExit → Shell → Prop} (hQ : ∀ sh', WriteSpec path content sh (.ok ()) sh' → Q () sh')
    (hE : ∀ sh', WriteSpec path content sh (.error .osError) sh' → E .osError sh') :
    (writeOutput path content).Wp Q E sh := by
  have h := writeOutput_spec path content sh
  rw [← Act.wp_outcome (P := WriteSpec path content sh)] at h
  refine h.mono (fun _ sh' h => hQ sh' h) fun e sh' h => ?_
  obtain rfl := h.os e rfl
  exact hE sh' h

section

variable (hmac : List UInt8 → List UInt8 → Bytes hashLen)

/-- `f` is the seed file, and `r` what becomes of its content. -/
def DeriveKeys.Roots (args : Args) (sh : Shell) (f : File) (r : PyM (List UInt8 × List UInt8)) : Prop :=
  sh.files args.seed = some f ∧ (loadSeed args.seed f.content >>= deriveRoots hmac) = r

theorem DeriveKeys.wp_rootsOf {args : Args} {sh : Shell} {Q : List UInt8 × List UInt8 → Shell → Prop}
    {E : CommandExit → Shell → Prop}
    (hQ : ∀ f d0 sk0, sh.sched.now = .ok → Roots hmac args sh f (.ok (d0, sk0)) → Q (d0, sk0) sh.tick)
    (hos : ¬ (sh.sched.now = .ok ∧ ∃ f, sh.files args.seed = some f) → E .osError sh.tick)
    (hE : ∀ f e, Roots hmac args sh f (.error e) → E (.py e) sh.tick) : (rootsOf hmac args).Wp Q E sh := by
  rw [rootsOf, Act.wp_bind]
  refine wp_readBytes (fun f hnow hf => ?_) hos
  rw [Act.wp_bind, wp_py]
  refine ⟨fun seed hseed => ?_, fun e hseed => hE f e ⟨hf, by rw [hseed]; rfl⟩⟩
  rw [wp_py]
  exact ⟨fun r hroots => hQ f r.1 r.2 hnow ⟨hf, by rw [hseed]; exact hroots⟩,
    fun e hroots => hE f e ⟨hf, by rw [hseed]; exact hroots⟩⟩

/-- What `derive_keys.main` prints, in the order of its two writes. -/
def DeriveKeys.printed (args : Args) (d0 sk0 : List UInt8) : List UInt8 :=
  toStdout args.nvs (buildNvsCsv d0 sk0) ++ toStdout args.keys (buildKeysFile d0 sk0)

/-- What `derive_keys.main` does. -/
structure DeriveKeys.MainSpec (args : Args) (sh : Shell) (rc : Except CommandExit Unit) (sh' : Shell) : Prop where
  writes : Writes [args.nvs, args.keys] sh rc sh'
  returns : rc = .ok () ↔ sh.sched.All (· = .ok) 3 ∧ ∃ f r, Roots hmac args sh f (.ok r)
  ok : rc = .ok () → ∃ f d0 sk0, Roots hmac args sh f (.ok (d0, sk0)) ∧
    sh'.Holds args.keys (buildKeysFile d0 sk0) ∧ (args.nvs ≠ args.keys → sh'.Holds args.nvs (buildNvsCsv d0 sk0)) ∧
    sh.Prints sh' (printed args d0 sk0) (toStderr args.nvs ++ toStderr args.keys)
  partly : rc ≠ .ok () → sh'.stdout = sh.stdout ∨ ∃ f d0 sk0, Roots hmac args sh f (.ok (d0, sk0)) ∧
    ∃ out, out <+: printed args d0 sk0 ∧ sh'.stdout = sh.stdout ++ out
  stops : ∀ e, rc = .error e → e = .osError ∨ ∃ f e', e = .py e' ∧ Roots hmac args sh f (.error e')

theorem Writes.mono {paths paths' : List (List Char)} {sh sh' : Shell} {rc : Except CommandExit Unit}
    (h : Writes paths sh rc sh') (hsub : paths ⊆ paths') : Writes paths' sh rc sh' :=
  ⟨h.guards, fun p hp => h.others p fun hm => hp (hsub hm), h.dash, fun hp => h.stdout fun hm => hp (hsub hm), h.clean⟩

theorem DeriveKeys.main_spec (args : Args) (sh : Shell) :
    let r := (main hmac args).run sh
    MainSpec hmac args sh r.1 r.2 := by
  simp only [← Act.wp_outcome (P := MainSpec hmac args sh), main, Act.wp_bind]
  have htick : ∀ rc, Writes [] sh rc sh.tick := fun rc => .nothing rfl rfl rfl
  have hall : sh.sched.All (· = .ok) 3 ↔ sh.sched.now = .ok ∧ (sh.sched.skip 1).now = .ok ∧
      (sh.sched.skip 2).now = .ok := by
    rw [Sched.all_succ, Sched.all_succ, Sched.all_one, Sched.skip_skip]
  have hos : ∀ e, (.error .osError : Except CommandExit Unit) = .error e →
      e = .osError ∨ ∃ f e', e = .py e' ∧ Roots hmac args sh f (.error e') := by
    rintro e ⟨⟩
    exact .inl rfl
  refine wp_rootsOf hmac (fun f d0 sk0 hnow hroots => ?_) (fun hno => ?_) fun f e hroots => ?_
  · simp only [Act.wp_bind]
    refine WriteSpec.wp (fun sh₁ h₁ => ?_) fun sh₁ h₁ => ?_
    · have hw := (htick _).append h₁.writes h₁.os
      have hnow₁ : (sh.sched.skip 1).now = .ok := h₁.returns.1 rfl
      have hsched : sh₁.sched = sh.sched.skip 2 := h₁.sched.trans (Sched.skip_skip _ _ _)
      have hp₁ : sh.Prints sh₁ (toStdout args.nvs (buildNvsCsv d0 sk0)) (toStderr args.nvs) :=
        ⟨(h₁.prints rfl).stdout, (h₁.prints rfl).stderr⟩
      refine WriteSpec.wp (fun sh₂ h₂ => ?_) fun sh₂ h₂ => ?_
      · have hnow₂ := h₂.returns.1 rfl
        rw [hsched] at hnow₂
        refine ⟨hw.append h₂.writes h₂.os, iff_of_true rfl ⟨hall.2 ⟨hnow, hnow₁, hnow₂⟩, f, _, hroots⟩,
          fun _ => ?_, fun h => absurd rfl h, by simp⟩
        refine ⟨f, d0, sk0, hroots, h₂.ok rfl, fun hne hnvs => ?_, hp₁.trans (h₂.prints rfl)⟩
        obtain ⟨g, hg, hcontent⟩ := h₁.ok rfl hnvs
        exact ⟨g, (h₂.writes.others _ (by simpa using hne)).trans hg, hcontent⟩
      · refine ⟨hw.append h₂.writes h₂.os, iff_of_false (by simp) ?_, by simp, fun _ => ?_, hos⟩
        · rintro ⟨h, -⟩
          cases h₂.returns.2 (hsched ▸ (hall.1 h).2.2)
        · -- the first text as a whole, and a part of the second
          obtain ⟨out, hpre, hp₂⟩ := h₂.partly (by simp)
          exact .inr ⟨f, d0, sk0, hroots, _, (List.prefix_append_right_inj _).2 hpre, (hp₁.trans hp₂).stdout⟩
    · refine ⟨((htick _).append h₁.writes h₁.os).mono (by simp), iff_of_false (by simp) ?_, by simp, fun _ => ?_, hos⟩
      · rintro ⟨h, -⟩
        cases h₁.returns.2 (hall.1 h).2.1
      · obtain ⟨out, hpre, hp₁⟩ := h₁.partly (by simp)
        exact .inr ⟨f, d0, sk0, hroots, out, hpre.trans (List.prefix_append _ _), hp₁.stdout⟩
  · refine ⟨(htick _).mono (by simp), iff_of_false (by simp) ?_, by simp, fun _ => .inl rfl, hos⟩
    rintro ⟨h, f, -, hf, -⟩
    exact hno ⟨(hall.1 h).1, f, hf⟩
  · refine ⟨(htick _).mono (by simp), iff_of_false (by simp) ?_, by simp, fun _ => .inl rfl, ?_⟩
    · rintro ⟨-, g, r, hg, hr⟩
      obtain rfl : f = g := Option.some.inj (hroots.1.symm.trans hg)
      rw [hroots.2] at hr
      cases hr
    · rintro _ ⟨⟩
      exact .inr ⟨f, e, rfl, hroots⟩

/-- What `gen_seed.main` does. -/
structure GenSeed.MainSpec (args : Args) (typed : List Char) (random : Bytes EsptagConst.seedLen) (sh : Shell)
    (rc : Except CommandExit Unit) (sh' : Shell) : Prop where
  writes : Writes [args.output] sh rc sh'
  returns : rc = .ok () ↔ sh.sched.now = .ok ∧ ∃ seed, seedOf hmac args typed random = .ok seed
  ok : rc = .ok () → ∃ seed, seedOf hmac args typed random = .ok seed ∧ sh'.Holds args.output (line seed.val) ∧
    sh.Prints sh' (toStdout args.output (line seed.val)) (toStderr args.output)
  partly : rc ≠ .ok () → sh'.stdout = sh.stdout ∨ ∃ seed, seedOf hmac args typed random = .ok seed ∧
    ∃ out, out <+: toStdout args.output (line seed.val) ∧ sh'.stdout = sh.stdout ++ out
  stops : ∀ e, rc = .error e → e = .osError ∨ seedOf hmac args typed random = .error e

theorem GenSeed.main_spec (args : Args) (typed : List Char) (random : Bytes EsptagConst.seedLen) (sh : Shell) :
    let r := (main hmac args typed random).run sh
    MainSpec hmac args typed random sh r.1 r.2 := by
  simp only [← Act.wp_outcome (P := MainSpec hmac args typed random sh), main, Act.wp_bind, wp_exits]
  refine ⟨fun seed hseed => ?_,
    fun e he => ⟨.nothing rfl rfl rfl, iff_of_false (by simp) ?_, by simp, fun _ => .inl rfl, ?_⟩⟩
  · refine WriteSpec.wp (fun sh₁ h₁ => ?_) fun sh₁ h₁ => ?_
    · exact ⟨h₁.writes, iff_of_true rfl ⟨h₁.returns.1 rfl, seed, hseed⟩,
        fun _ => ⟨seed, hseed, h₁.ok rfl, h₁.prints rfl⟩, fun h => absurd rfl h, by simp⟩
    · refine ⟨h₁.writes, iff_of_false (by simp) ?_, by simp, fun _ => ?_, fun e he => .inl (h₁.os e he)⟩
      · rintro ⟨h, -⟩
        cases h₁.returns.2 h
      · obtain ⟨out, hpre, hp⟩ := h₁.partly (by simp)
        exact .inr ⟨seed, hseed, out, hpre, hp.stdout⟩
  · rintro ⟨-, seed, hseed⟩
    rw [he] at hseed
    cases hseed
  · rintro e' ⟨⟩
    exact .inr he

end

/-- The two scripts that write secrets, over every file system and whatever calls of the operating
system fail: each touches its outputs only, and nothing at all where it exits or raises for another
reason; no file is removed or gets wider permissions than it had, and a new one is its owner's alone.
What they have written when they return, to a file or for `-` behind what was printed before, is the
seed chosen, in the one, and in the other both forms of the root secrets of the seed in the file; where
they stop, they have printed a beginning of it at most. -/
theorem scripts_write (hmac : List UInt8 → List UInt8 → Bytes hashLen) (genArgs : GenSeed.Args) (typed : List Char)
    (random : Bytes EsptagConst.seedLen) (args : DeriveKeys.Args) (sh : Shell) :
    let g := (GenSeed.main hmac genArgs typed random).run sh
    let r := (DeriveKeys.main hmac args).run sh
    GenSeed.MainSpec hmac genArgs typed random sh g.1 g.2 ∧ DeriveKeys.MainSpec hmac args sh r.1 r.2 :=
  ⟨GenSeed.main_spec hmac genArgs typed random sh, DeriveKeys.main_spec hmac args sh⟩

/-! ## From one command to the next -/

/-- A seed that `gen_seed.main` wrote to a file is the one `derive_keys.load_seed` reads from it. -/
theorem loadSeed_of_holds {sh : Shell} {path : List Char} {seed : Bytes EsptagConst.seedLen} (hp : path ≠ "-".toList)
    (h : sh.Holds path (GenSeed.line seed.val)) {f : File} (hf : sh.files path = some f) :
    DeriveKeys.loadSeed path f.content = .ok seed.val := by
  obtain ⟨g, hg, hcontent⟩ := h hp
  obtain rfl : g = f := Option.some.inj (hg.symm.trans hf)
  have hascii : ∀ c ∈ GenSeed.line seed.val, c.toNat < 128 := by
    rw [GenSeed.line]
    intro c hc
    rcases List.mem_append.1 hc with hc | hc
    · exact Text.forall_mem_toHex (P := fun c => c.toNat < 128) (by decide) seed.val c hc
    · rw [List.mem_singleton.1 hc]
      decide
  rw [hcontent, Text.utf8_eq_ascii hascii]
  exact DeriveKeys.loadSeed_line path seed

/-- The key file has no carriage returns. -/
theorem buildKeysFile_newlines (d0 sk0 : List UInt8) :
    Text.universalNewlines (DeriveKeys.buildKeysFile d0 sk0) = DeriveKeys.buildKeysFile d0 sk0 := by
  apply Text.universalNewlines_eq_self
  have hhex : ∀ l, '\r' ∉ Text.toHex l := fun l hm =>
    absurd rfl (Text.forall_mem_toHex (P := fun c => c ≠ '\r') (by decide) l _ hm)
  have hd : '\r' ∉ EsptagConst.keyD0 := by decide
  have hs : '\r' ∉ EsptagConst.keySk0 := by decide
  simp [DeriveKeys.buildKeysFile, hhex, hd, hs]

/-- `fetch_reports.main` on a key file of `derive_keys.main`. -/
theorem FetchReports.run_main (env : Env) {args : Args} {count : Int} (hcount : epochCount args = .ok count)
    (d0 : Bytes dLen) (sk0 : Bytes skLen) {sh : Shell} (hnow : sh.sched.now = .ok) (hp : args.seed ≠ "-".toList)
    (h : sh.Holds args.seed (DeriveKeys.buildKeysFile d0.val sk0.val)) :
    ((main env.sha256 args).run sh).1 =
      .ok ((List.range' args.start.toNat count.toNat).map fun e => (e, (epochPrivate env d0 sk0 e).val)) := by
  obtain ⟨f, hf, hcontent⟩ := h hp
  have hread : (readBytes args.seed).run sh = (.ok f.content, sh.tick) := by
    simp only [readBytes, hnow, hf]
  have htext : (readText args.seed).run sh = (.ok (DeriveKeys.buildKeysFile d0.val sk0.val), sh.tick) := by
    rw [readText, Act.bind_ok hread, hcontent]
    simp only [Text.decodeUtf8_utf8, Act.run_pure, buildKeysFile_newlines]
  have hload := loadSeed_buildKeysFile args.seed d0.property sk0.property
  have hkeys := deriveEpochKeys_eq env d0 sk0 args.start.toNat count.toNat
  have hpy : ∀ {α : Type} (x : PyM α) (a : α) (sh : Shell), x = .ok a → (py x).run sh = (.ok a, sh) := by
    rintro α x a sh rfl
    rfl
  rw [main, Act.bind_ok (hpy _ _ _ hcount), Act.bind_ok htext, Act.bind_ok (hpy _ _ _ hload), hpy _ _ _ hkeys]

end Esptag
