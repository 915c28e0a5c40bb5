/-
The whole chain, from the owner's commands to the air and back: the keys a device advertises that was
built from the output of `derive_keys.py` are keys whose private scalars `fetch_reports.py` derives
from the key file of the same run.
-/
import Esptag.Device.Points
import Esptag.Host.Commands
import Esptag.Host.Provision

namespace Esptag

open Octets Crypto Nvs Uecc Provision

/-- The flash content the build makes of the partition CSV at `path`. -/
def flashImage (tool : PartitionTool) (sh : Shell) (path : List Char) : Option Store :=
  (sh.files path).bind fun f => (Text.decodeUtf8 f.content).map fun text => tool.image (Text.csvRows text)

theorem flashImage_of_holds (tool : PartitionTool) {sh : Shell} {path content : List Char} (hp : path ≠ "-".toList)
    (h : sh.Holds path content) : flashImage tool sh path = some (tool.image (Text.csvRows content)) := by
  obtain ⟨f, hf, hcontent⟩ := h hp
  rw [flashImage, hf, Option.bind_some, hcontent, Text.decodeUtf8_utf8, Option.map_some]

theorem seedIn_image (tool : PartitionTool) (d0 : Bytes dLen) (sk0 : Bytes skLen) :
    SeedIn (tool.image (Text.csvRows (DeriveKeys.buildNvsCsv d0.val sk0.val))) d0 sk0 := by
  obtain ⟨hd, hsk⟩ := image_get tool d0.property sk0.property
  exact ⟨Store.blob_eq_some_iff.2 hd, Store.blob_eq_some_iff.2 hsk⟩

/-- The keys asked for, of the epochs from `start` on, and their scalars. -/
theorem mem_main {env : Env} {d0 : Bytes dLen} {sk0 : Bytes skLen} {start count e : Nat} (h1 : start ≤ e)
    (h2 : e < start + count) : (e, (FetchReports.epochPrivate env d0 sk0 e).val) ∈
      (List.range' start count).map fun e => (e, (FetchReports.epochPrivate env d0 sk0 e).val) :=
  List.mem_map.2 ⟨e, List.mem_range'_1.2 ⟨h1, h2⟩, rfl⟩

/-- The host's scalar is the firmware's. -/
theorem beNat_epochPrivate (env : Env) (d0 : Bytes dLen) (sk0 : Bytes skLen) (e : Nat) :
    beNat (FetchReports.epochPrivate env d0 sk0 e).val = scalarAt env d0 sk0 e := by
  have hlt := lt_trans (epochScalar_lt env d0 (epochSk env sk0 e)) curveOrder_lt
  rw [FetchReports.epochPrivate, val_be, beNat_toBE_of_lt hlt, scalarAt]

section

variable {hmac : List UInt8 → List UInt8 → Bytes hashLen} {genArgs : GenSeed.Args} {typed : List Char}
  {random : Bytes EsptagConst.seedLen} {args : DeriveKeys.Args} {sh : Shell}

/-- What the two scripts leave for the build and for the host tools, where both return. -/
theorem provisioned (hgen : ((GenSeed.main hmac genArgs typed random).run sh).1 = .ok ())
    (hder : ((DeriveKeys.main hmac args).run ((GenSeed.main hmac genArgs typed random).run sh).2).1 = .ok ())
    (hseed : args.seed = genArgs.output) (hout : genArgs.output ≠ "-".toList) (hne : args.nvs ≠ args.keys) :
    let sh' := ((DeriveKeys.main hmac args).run ((GenSeed.main hmac genArgs typed random).run sh).2).2
    ∃ (seed : Bytes EsptagConst.seedLen) (d0 : Bytes dLen) (sk0 : Bytes skLen),
      GenSeed.seedOf hmac genArgs typed random = .ok seed ∧
      DeriveKeys.deriveRoots hmac seed.val = .ok (d0.val, sk0.val) ∧
      sh'.Holds args.nvs (DeriveKeys.buildNvsCsv d0.val sk0.val) ∧
      sh'.Holds args.keys (DeriveKeys.buildKeysFile d0.val sk0.val) := by
  obtain ⟨seed, hs, hholds, -⟩ := (GenSeed.main_spec hmac genArgs typed random sh).ok hgen
  obtain ⟨f, d0, sk0, ⟨hf, hroots⟩, hkeys, hnvs, -⟩ := (DeriveKeys.main_spec hmac args _).ok hder
  rw [hseed] at hf hroots
  rw [loadSeed_of_holds hout hholds hf] at hroots
  replace hroots : DeriveKeys.deriveRoots hmac seed.val = .ok (d0, sk0) := hroots
  obtain ⟨hd, hsk⟩ := DeriveKeys.deriveRoots_length hroots
  exact ⟨seed, ⟨d0, hd⟩, ⟨sk0, hsk⟩, hs, hroots, hnvs hne, hkeys⟩

end

/-- The owner can find the tag: with the files of one run of `gen_seed.py` and `derive_keys.py`, every
key that a device built from the partition CSV hands to its radio, in any run, whatever fails and
whenever power is lost, is the public key of a scalar that `fetch_reports.py` derives from the key
file for the key's epoch, if that is in the range it is asked for. The epoch is the tag's counter,
modulo `2^32` where the counter has wrapped. -/
theorem owner_finds (hmac : List UInt8 → List UInt8 → Bytes hashLen) (env : Env) (tool : PartitionTool)
    (genArgs : GenSeed.Args) (typed : List Char) (random : Bytes EsptagConst.seedLen) (args : DeriveKeys.Args)
    (sh : Shell) (hgen : ((GenSeed.main hmac genArgs typed random).run sh).1 = .ok ())
    (hder : ((DeriveKeys.main hmac args).run ((GenSeed.main hmac genArgs typed random).run sh).2).1 = .ok ())
    (hseed : args.seed = genArgs.output) (hout : genArgs.output ≠ "-".toList) (hnvs : args.nvs ≠ "-".toList)
    (hkeys : args.keys ≠ "-".toList) (hne : args.nvs ≠ args.keys) :
    let sh' := ((DeriveKeys.main hmac args).run ((GenSeed.main hmac genArgs typed random).run sh).2).2
    ∃ store, flashImage tool sh' args.nvs = some store ∧
      ∀ (cfg : Config) (flash : Sched Nvs.Fate) (world : World) (radio : Sched EspErr) (power : Sched Bool)
        (es : List Event) (key : Bytes pLen) (c : UInt32),
        let d := (Device.new store flash world radio power).run cfg env.withUecc es
        .handed key c ∈ d.log → ∃ e, e % 2 ^ 32 = c.toNat ∧ (.rotated 0 ∉ d.log → e = c.toNat) ∧
          ∀ (f : FetchReports.Args) (count : Int) (sh'' : Shell), f.seed = args.keys →
            sh''.files args.keys = sh'.files args.keys → sh''.sched.now = .ok → FetchReports.epochCount f = .ok count →
            f.start.toNat ≤ e → e < f.start.toNat + count.toNat →
            ∃ pairs x, ((FetchReports.main env.sha256 f).run sh'').1 = .ok pairs ∧ (e, x) ∈ pairs ∧
              key = pointKey (beNat x) := by
  intro sh'
  obtain ⟨seed, d0, sk0, -, -, hcsv, hfile⟩ := provisioned hgen hder hseed hout hne
  refine ⟨_, flashImage_of_holds tool hnvs hcsv, ?_⟩
  intro cfg flash world radio power es key c d hm
  obtain ⟨d1, sk1, e, hseed1, ⟨he, hctr⟩, -, hkey⟩ := handed_point (withUecc_eccPoint env) hm
  obtain ⟨rfl, rfl⟩ := hseed1.unique (seedIn_image tool d0 sk0)
  refine ⟨e, he, hctr, ?_⟩
  intro f count sh'' hf hsame hnow hcount hlo hhi
  have hholds : sh''.Holds f.seed (DeriveKeys.buildKeysFile d1.val sk1.val) := by
    rw [hf, Shell.Holds, hsame]
    exact hfile
  have hmain := FetchReports.run_main env hcount d1 sk1 hnow (hf ▸ hkeys) hholds
  refine ⟨_, _, hmain, mem_main hlo hhi, ?_⟩
  rw [beNat_epochPrivate, ← scalarAt_withUecc]
  exact hkey

/-! ## One chain -/

/-- No files yet, and nothing fails. -/
def Shell.sample : Shell := ⟨fun _ => none, [], [], 0o022, ⟨fun _ => .ok, 0⟩⟩

/-- An HMAC whose outputs all spell `2 ^ 40`. -/
def hmacSample : List UInt8 → List UInt8 → Bytes hashLen := fun _ _ => be hashLen (2 ^ 40)

def GenSeed.Args.sample : GenSeed.Args := { output := "seed.key".toList }

def DeriveKeys.Args.sample : DeriveKeys.Args := ⟨"seed.key".toList, "seed.csv".toList, "seed.keys".toList⟩

theorem gen_sample : ((GenSeed.main hmacSample .sample [] (Bytes.zero 32)).run .sample).1 = .ok () :=
  (GenSeed.main_spec hmacSample .sample [] (Bytes.zero 32) .sample).returns.2 ⟨rfl, Bytes.zero 32, rfl⟩

theorem roots_sample : DeriveKeys.deriveRoots hmacSample (Bytes.zero 32).val =
    .ok ((be dLen 256).val, (be skLen (2 ^ 40)).val) :=
  DeriveKeys.deriveRoots_first _ (by decide) (by decide) (by decide)

theorem derive_sample : ((DeriveKeys.main hmacSample .sample).run
    ((GenSeed.main hmacSample .sample [] (Bytes.zero 32)).run .sample).2).1 = .ok () := by
  obtain ⟨seed, hs, hholds, -⟩ := (GenSeed.main_spec hmacSample .sample [] (Bytes.zero 32) .sample).ok gen_sample
  obtain rfl : Bytes.zero 32 = seed := Except.ok.inj hs
  obtain ⟨f, hf, -⟩ := hholds (by decide)
  have hload := loadSeed_of_holds (by decide) hholds hf
  have hroots : DeriveKeys.Roots hmacSample .sample
      ((GenSeed.main hmacSample .sample [] (Bytes.zero 32)).run .sample).2 f
      (.ok ((be dLen 256).val, (be skLen (2 ^ 40)).val)) := by
    refine ⟨hf, ?_⟩
    rw [show DeriveKeys.Args.sample.seed = GenSeed.Args.sample.output from rfl, hload]
    exact roots_sample
  exact (DeriveKeys.main_spec hmacSample .sample _).returns.2 ⟨fun _ _ => rfl, f, _, hroots⟩

theorem usable_sample : Usable (scalarAt Env.counting (be dLen 256) (be skLen (2 ^ 40)) 0) := by decide +kernel

/-- From a seed of zeros, the key the device advertises first is found from the key file. -/
theorem owner_finds_sample :
    let sh := ((DeriveKeys.main hmacSample .sample).run
      ((GenSeed.main hmacSample .sample [] (Bytes.zero 32)).run .sample).2).2
    ∃ store, flashImage .reference sh "seed.csv".toList = some store ∧
      ∃ key, .handed key 0 ∈ ((Device.new store ⟨fun _ => .ok, 0⟩ World.start ⟨fun _ => .ok, 0⟩
          ⟨fun _ => false, 0⟩).run ⟨false, true⟩ Env.counting.withUecc [.boot, .sync]).log ∧
        ∃ pairs x, ((FetchReports.main Env.counting.sha256 { seed := "seed.keys".toList }).run
            { sh with sched := ⟨fun _ => .ok, 0⟩ }).1 = .ok pairs ∧ (0, x) ∈ pairs ∧ key = pointKey (beNat x) := by
  intro sh
  obtain ⟨store, hstore, h⟩ := owner_finds hmacSample Env.counting .reference .sample [] (Bytes.zero 32) .sample .sample
    gen_sample derive_sample rfl (by decide) (by decide) (by decide) (by decide)
  refine ⟨store, hstore, ?_⟩
  obtain ⟨seed, d0, sk0, hs, hroots, hcsv, -⟩ := provisioned gen_sample derive_sample rfl (by decide) (by decide)
  obtain rfl : Bytes.zero 32 = seed := Except.ok.inj hs
  obtain ⟨hd, hsk⟩ := Prod.mk.inj (Except.ok.inj (roots_sample.symm.trans hroots))
  obtain rfl := Subtype.ext hd
  obtain rfl := Subtype.ext hsk
  have himage := flashImage_of_holds .reference (by decide) hcsv
  obtain rfl := Option.some.inj (himage.symm.trans hstore)
  obtain ⟨-, -, key, -, hlog⟩ := run_boot_sync (sound_uecc (seedIn_image .reference _ _) usable_sample)
  replace hlog := hlog.trans (List.nil_append _)
  obtain ⟨e, -, hctr, hfind⟩ := h ⟨false, true⟩ ⟨fun _ => .ok, 0⟩ World.start ⟨fun _ => .ok, 0⟩ ⟨fun _ => false, 0⟩
    [.boot, .sync] key 0 (by rw [hlog]; simp)
  obtain rfl : e = 0 := hctr (by rw [hlog]; simp)
  refine ⟨key, by rw [hlog]; simp, ?_⟩
  exact hfind { seed := "seed.keys".toList } 1 { sh with sched := ⟨fun _ => .ok, 0⟩ } rfl rfl rfl rfl
    (Nat.zero_le _) (by decide)

end Esptag
