/-
The device: `main.c` and `ble_adv.c` over the flash, the crypto module and the radio. A run is a
sequence of boots, of the radio stack's ready callback, of rotation timer expiries and of losses of
power; power may also be lost at any point inside a function, and every call may fail. The device
keeps a log of what it does that can be seen from outside.
-/
import Esptag.Nvs.Store
import Esptag.Tag.Basic

namespace Esptag

open Octets Crypto Nvs

/-! ## The state -/

/-- An entry of the log. -/
inductive Obs where
  /-- Power on. -/
  | boot
  /-- `tag_init` was called with the counter, and returned. -/
  | init (counter : UInt32) (rc : Status)
  /-- `tag_rotate` returned OK, with this counter. -/
  | rotated (counter : UInt32)
  /-- `nvs_store_save_counter` was called, and returned or was cut off; was the counter stored? -/
  | saved (counter : UInt32) (rc : Option Status) (stored : Bool)
  /-- `findmy_adv_set_key` was called with the key, the tag's counter being this. -/
  | handed (key : Bytes pLen) (counter : UInt32)
  deriving DecidableEq

/-- Where the firmware is between callbacks: not running, waiting for the radio stack to sync, or
past `on_ready`. -/
inductive Phase where
  | off
  | syncing
  | ready
  deriving DecidableEq, Repr

/-- The device. The schedules say what each call of the radio component returns, and at which
points power is lost. -/
structure Device where
  flash : Flash
  world : World
  radio : Sched EspErr
  power : Sched Bool
  tag : Tag
  armed : Bool
  phase : Phase
  log : List Obs

/-- A program of the firmware. -/
abbrev DeviceM := Act Stop Device

namespace Device

/-- A device that was never switched on. -/
def new (store : Store) (flash : Sched Nvs.Fate) (world : World) (radio : Sched EspErr) (power : Sched Bool) : Device :=
  ⟨⟨flash, store, [], 0, [], []⟩, world, radio, power, Tag.zero, false, .off, []⟩

/-- Power on: memory is as the loader sets it up. -/
def reset (d : Device) : Device :=
  { d with flash := d.flash.reboot, tag := Tag.zero, armed := false, phase := .off, log := d.log ++ [.boot] }

end Device

/-! ## The calls -/

section

variable {α : Type}

/-- A point between two statements, where power may be lost. -/
def point : DeviceM Unit where
  run d := (if d.power.now then .error .powerLoss else .ok (), { d with power := d.power.skip 1 })

/-- `if (rc != STATUS_OK) { cleanup; abort(); }`. -/
def abortUnless (rc : Status) (cleanup : DeviceM Unit) : DeviceM Unit :=
  if rc ≠ .ok then do
    cleanup
    Act.stop .abort
  else
    pure ()

/-- A call of the flash. -/
def inFlash (x : FlashM α) : DeviceM α where
  run d := ((x.run d.flash).1, { d with flash := (x.run d.flash).2 })

/-- A call of the crypto module. -/
def inWorld (x : CryptoM α) : DeviceM α where
  run d := (.ok (x.run d.world).1, { d with world := (x.run d.world).2 })

end

/-- `nvs_store_save_counter`, logged. -/
def saveCounter (counter : UInt32) : DeviceM Status where
  run d :=
    let r := (nvsStoreSaveCounter counter).run d.flash
    (r.1, { d with flash := r.2, log := d.log ++ [.saved counter r.1.toOption d.flash.saveStores] })

/-- `tag_init` of the static tag, logged. -/
def initTag (env : Env) (counter : UInt32) : DeviceM Status where
  run d :=
    let r := (tagInit env d.tag counter).run d.world
    (.ok r.1.1, { d with tag := r.1.2, world := r.2, log := d.log ++ [.init counter r.1.1] })

/-- `tag_rotate` of the static tag, logged. -/
def rotateTag (env : Env) : DeviceM Status where
  run d :=
    let r := (tagRotate env d.tag).run d.world
    (.ok r.1.1, { d with tag := r.1.2, world := r.2,
                         log := if r.1.1 = .ok then d.log ++ [.rotated r.1.2.counter] else d.log })

/-- `findmy_adv_init`. -/
def findmyAdvInit : DeviceM EspErr where
  run d := (.ok d.radio.now, { d with radio := d.radio.skip 1 })

/-- `findmy_adv_set_key`, logged. -/
def findmyAdvSetKey (key : Bytes pLen) : DeviceM EspErr where
  run d := (.ok d.radio.now, { d with radio := d.radio.skip 1, log := d.log ++ [.handed key d.tag.counter] })

/-- `ble_npl_callout_init` of the rotation timer. -/
def calloutInit : DeviceM Unit := Act.modify fun d => { d with armed := false }

/-- `ble_npl_callout_reset` of the rotation timer. -/
def calloutReset : DeviceM Unit := Act.modify fun d => { d with armed := true }

/-! ## The functions -/

/-- `ble_adv_init`. -/
def bleAdvInit : DeviceM Status := do
  let err ← findmyAdvInit
  return if err = .ok then .ok else .err

section

variable (cfg : Config) (env : Env)

/-- `on_ready`. -/
def onReady : DeviceM Unit := do
  point
  let key ← Act.gets fun d => d.tag.pCurr
  let err ← findmyAdvSetKey key
  point
  if err ≠ .ok then
    return
  if cfg.rotateEnable then
    calloutInit
    calloutReset

/-- `on_rotate`. -/
def onRotate : DeviceM Unit := do
  point
  let rc ← rotateTag env
  point
  -- neither failure is more than logged
  if rc = .ok ∧ cfg.persistCounter then
    let counter ← Act.gets fun d => d.tag.counter
    let _ ← saveCounter counter
  point
  let key ← Act.gets fun d => d.tag.pCurr
  let _ ← findmyAdvSetKey key
  point
  calloutReset

/-- `tag_destroy` of the static tag. -/
def destroyTag : DeviceM Unit := Act.modify fun d => { d with tag := (tagDestroy env d.tag).2 }

/-- The counter `app_main` starts from. -/
def resumeCounter : DeviceM UInt32 := do
  let counter : UInt32 := 0
  if cfg.persistCounter then
    let (rc, counter) ← inFlash (nvsStoreLoadCounter counter)
    abortUnless rc (pure ())
    return counter
  else
    return counter

/-- `app_main`. -/
def appMain : DeviceM Unit := do
  point
  let rc ← inWorld cryptoInit
  abortUnless rc (pure ())
  point
  let rc ← inFlash nvsStoreInit
  abortUnless rc (pure ())
  point
  let tag ← Act.gets Device.tag
  let (rc, d0, sk0) ← inFlash (nvsStoreLoadSeed tag.d0 tag.sk0)
  Act.modify fun d => { d with tag := { d.tag with d0 := d0, sk0 := sk0 } }
  abortUnless rc (pure ())
  point
  let counter ← resumeCounter cfg
  point
  let rc ← initTag env counter
  abortUnless rc (destroyTag env)
  point
  let rc ← bleAdvInit
  abortUnless rc (destroyTag env)

/-! ## Runs -/

/-- What happens to the device: power comes on, the radio stack has synced, the rotation timer
expires, power is lost between two callbacks. -/
inductive Event where
  | boot
  | sync
  | timeout
  | powerLoss
  deriving DecidableEq, Repr

/-- The device after a function ran: in phase `phase` where it returned, off where it stopped. -/
def Device.settle (phase : Phase) : Except Stop Unit × Device → Device
  | (.ok _, d) => { d with phase := phase }
  | (.error _, d) => { d with phase := .off }

/-- The device after an event. The stack syncs once, after `app_main`; the timer expires only while
it is armed, and is not armed any more then. -/
def Device.step (d : Device) : Event → Device
  | .boot => .settle .syncing ((appMain cfg env).run d.reset)
  | .sync => if d.phase = .syncing then .settle .ready ((onReady cfg).run d) else d
  | .timeout =>
    if d.phase = .ready ∧ d.armed then .settle .ready ((onRotate cfg env).run { d with armed := false }) else d
  | .powerLoss => { d with phase := .off }

/-- The device after a sequence of events. -/
def Device.run (d : Device) (es : List Event) : Device := es.foldl (Device.step cfg env) d

end

end Esptag
