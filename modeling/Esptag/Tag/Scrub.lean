/-
`CONFIG_ESPTAG_ZEROIZE`: with it set, every local buffer of the crypto module and of `tag_rotate` is
left without anything that was stored in it, on every path, and setting it changes nothing else.
-/
import Esptag.Tag.Basic

namespace Esptag

open Octets Crypto

namespace Crypto

/-- The build with `CONFIG_ESPTAG_ZEROIZE` set. -/
def Env.on (env : Env) : Env := { env with zeroize := true }

/-- The build with `CONFIG_ESPTAG_ZEROIZE` not set. -/
def Env.off (env : Env) : Env := { env with zeroize := false }

/-- Two worlds that differ at most in the buffers left, the first one having been left clean ones
only after `l`. -/
structure Tidy (l : List Dead) (w w' : World) : Prop where
  sched : w.sched = w'.sched
  queries : w.queries = w'.queries
  dead : ∃ m, w.dead = l ++ m ∧ ∀ b ∈ m, b.buf.Clean

/-- With the option set, `x` leaves clean buffers, and it returns and changes all else as `y` does. -/
def Hygienic {α : Type} (x y : CryptoM α) : Prop := ∀ l, Prog.Rel (Tidy l) x y

/-- `x` leaves local buffers and takes none back. -/
def Grows {α : Type} (x : CryptoM α) : Prop := ∀ w, ∃ m, (x.run w).2.dead = w.dead ++ m

/-- From `w`, `x` leaves the buffer `name`. -/
def Leaves {α : Type} (name : Local) (x : CryptoM α) (w : World) : Prop :=
  ∃ m, (x.run w).2.dead = w.dead ++ m ∧ ∃ b ∈ m, b.name = name

/-- From `w`, `x` leaves the buffers `locals` and maybe others, none of them with anything stored in
it, and it returns what `y` does. -/
structure Scrubbed {α : Type} (locals : List Local) (x y : CryptoM α) (w : World) : Prop where
  clean : ∃ m, (x.run w).2.dead = w.dead ++ m ∧ (∀ b ∈ m, b.buf.Clean) ∧ ∀ name ∈ locals, ∃ b ∈ m, b.name = name
  same : (x.run w).1 = (y.run w).1

section

variable {α β : Type}

theorem Hygienic.grows {x y : CryptoM α} (h : Hygienic x y) : Grows x := fun w => by
  obtain ⟨-, htidy⟩ := h w.dead w w ⟨rfl, rfl, [], by simp, by simp⟩
  obtain ⟨m, hm, -⟩ := htidy.dead
  exact ⟨m, hm⟩

theorem Hygienic.scrubbed {x y : CryptoM α} {locals : List Local} (h : Hygienic x y)
    {w : World} (hleaves : ∀ name ∈ locals, Leaves name x w) : Scrubbed locals x y w := by
  obtain ⟨hret, htidy⟩ := h w.dead w w ⟨rfl, rfl, [], by simp, by simp⟩
  obtain ⟨m, hm, hclean⟩ := htidy.dead
  refine ⟨⟨m, hm, hclean, fun name hname => ?_⟩, hret⟩
  obtain ⟨m', hm', hb⟩ := hleaves name hname
  rwa [List.append_cancel_left (hm.symm.trans hm')]

theorem Hygienic.pure (a : α) : Hygienic (Pure.pure a) (Pure.pure a) := fun _ => .pure a

theorem Hygienic.bind {x y : CryptoM α} {f g : α → CryptoM β} (hx : Hygienic x y)
    (hf : ∀ w, Hygienic (f (x.run w).1) (g (x.run w).1)) : Hygienic (x >>= f) (y >>= g) :=
  fun l => .bind (hx l) fun w => hf w l

theorem Hygienic.ite {c : Prop} [Decidable c] {x x' y y' : CryptoM α} (h : c → Hygienic x y)
    (h' : ¬ c → Hygienic x' y') : Hygienic (if c then x else x') (if c then y else y') :=
  fun l => .ite (fun hc => h hc l) fun hc => h' hc l

/-- A clean buffer is left. -/
theorem Hygienic.leave {n : Nat} (name : Local) {b b' : Buf n} (h : b.Clean) :
    Hygienic (Crypto.leave name b) (Crypto.leave name b') := by
  rintro l w w' ⟨hs, hq, m, hm, hclean⟩
  refine ⟨rfl, hs, hq, m ++ [⟨name, n, b⟩], ?_, ?_⟩
  · simp only [run_leave, hm, List.append_assoc]
  · intro d hd
    rcases List.mem_append.1 hd with hd | hd
    · exact hclean d hd
    · rw [List.mem_singleton.1 hd]
      exact h

/-- A scrubbed buffer is left. -/
theorem Hygienic.leaveScrubbed {n : Nat} (env : Env) (name : Local) (b b' : Buf n) :
    Hygienic (Crypto.leave name (env.on.scrub b)) (Crypto.leave name b') := .leave name b.clean_zeroize

theorem Hygienic.primCall (r : Option α) : Hygienic (Crypto.primCall r) (Crypto.primCall r) := by
  rintro l w w' ⟨hs, hq, hd⟩
  refine ⟨?_, ?_, hq, hd⟩
  · simp only [run_primCall, hs]
  · simp only [run_primCall, World.tick_sched, hs]

theorem hygienic_hash (env : Env) (input : List UInt8) (out : Buf hashLen) :
    Hygienic (hash env.on input out) (hash env.off input out) := by
  refine .bind ?_ fun w => .ite (fun _ => .pure _) fun _ => .ite (fun _ => .pure _) fun _ => .pure _
  rintro l w w' ⟨hs, hq, hd⟩
  simp only [psaHashCompute, hs, hq]
  cases w'.sched.now with
  | ok => exact ⟨rfl, congrArg (·.skip 1) hs, rfl, hd⟩
  | fails => exact ⟨rfl, congrArg (·.skip 1) hs, rfl, hd⟩
  | wrongLen len h => exact ⟨rfl, congrArg (·.skip 1) hs, rfl, hd⟩

theorem Grows.pure (a : α) : Grows (Pure.pure a) := fun _ => ⟨[], (List.append_nil _).symm⟩

theorem Grows.bind {x : CryptoM α} {f : α → CryptoM β} (hx : Grows x) (hf : ∀ a, Grows (f a)) : Grows (x >>= f) := by
  intro w
  obtain ⟨m, hm⟩ := hx w
  obtain ⟨m', hm'⟩ := hf (x.run w).1 (x.run w).2
  exact ⟨m ++ m', by rw [Prog.run_bind, hm', hm, List.append_assoc]⟩

theorem Grows.ite {c : Prop} [Decidable c] {x y : CryptoM α} (h : Grows x) (h' : Grows y) :
    Grows (if c then x else y) := by
  split
  · exact h
  · exact h'

theorem Leaves.leave {n : Nat} (name : Local) (b : Buf n) (w : World) : Leaves name (Crypto.leave name b) w :=
  ⟨[⟨name, n, b⟩], rfl, ⟨name, n, b⟩, List.mem_singleton_self _, rfl⟩

theorem Grows.leave {n : Nat} (name : Local) (b : Buf n) : Grows (Crypto.leave name b) := fun _ => ⟨_, rfl⟩

/-- The buffer is left by what comes first. -/
theorem Leaves.bind {name : Local} {x : CryptoM α} {f : α → CryptoM β} {w : World} (hx : Leaves name x w)
    (hf : ∀ a, Grows (f a)) : Leaves name (x >>= f) w := by
  obtain ⟨m, hm, b, hb, hname⟩ := hx
  obtain ⟨m', hm'⟩ := hf (x.run w).1 (x.run w).2
  exact ⟨m ++ m', by rw [Prog.run_bind, hm', hm, List.append_assoc], b, List.mem_append_left _ hb, hname⟩

/-- The buffer is left by what follows. -/
theorem Leaves.after {name : Local} {x : CryptoM α} {f : α → CryptoM β} {w : World} (hx : Grows x)
    (hf : Leaves name (f (x.run w).1) (x.run w).2) : Leaves name (x >>= f) w := by
  obtain ⟨m, hm⟩ := hx w
  obtain ⟨m', hm', b, hb, hname⟩ := hf
  exact ⟨m ++ m', by rw [Prog.run_bind, hm', hm, List.append_assoc], b, List.mem_append_right _ hb, hname⟩

theorem Leaves.ite {c : Prop} [Decidable c] {name : Local} {x y : CryptoM α} {w : World} (h : c → Leaves name x w)
    (h' : ¬ c → Leaves name y w) : Leaves name (if c then x else y) w := by
  split
  · exact h ‹_›
  · exact h' ‹_›

/-- Two buffers left one after the other. -/
theorem leaves_both {n n' : Nat} (name name' : Local) (b : Buf n) (b' : Buf n') {x : CryptoM α} (hx : Grows x)
    (w : World) : ∀ l ∈ [name, name'],
      Leaves l (Crypto.leave name b >>= fun _ => Crypto.leave name' b' >>= fun _ => x) w := by
  simp only [List.forall_mem_cons]
  refine ⟨?_, ?_, by simp⟩
  · exact .bind (.leave _ _ _) fun _ => (Grows.leave _ _).bind fun _ => hx
  · exact .after (.leave _ _) (.bind (.leave _ _ _) fun _ => hx)

end

/-! ## The functions of `crypto.c` -/

section

variable {m : Nat} (env : Env)

theorem hygienic_kdfLoop (inLen outLen : Nat) : ∀ (n counter : Nat) (inBuf : Buf maxBufLen) (block : Buf hashLen)
    (out : Buf m), Hygienic (kdfLoop env.on inLen outLen n counter inBuf block out)
      (kdfLoop env.off inLen outLen n counter inBuf block out)
  | 0, _, _, _, _ => .pure _
  | n + 1, counter, inBuf, block, out => by
    refine .bind (hygienic_hash env _ _) fun w => .ite (fun _ => .pure _) fun _ => ?_
    exact hygienic_kdfLoop inLen outLen n (counter + 1) _ _ _

theorem hygienic_kdf (z : Bytes skLen) (info : Label) (out : Buf m) (outLen : Nat) :
    Hygienic (kdf env.on z info out outLen) (kdf env.off z info out outLen) := by
  refine .ite (fun _ => .pure _) fun _ => .bind (hygienic_kdfLoop env _ _ _ _ _ _ _) fun w => ?_
  exact .bind (.leaveScrubbed env _ _ _) fun _ => .bind (.leaveScrubbed env _ _ _) fun _ => .pure _

theorem hygienic_cryptoUpdateSk (skPrev : Bytes skLen) (skNext : Buf skLen) :
    Hygienic (cryptoUpdateSk env.on skPrev skNext) (cryptoUpdateSk env.off skPrev skNext) :=
  .bind (hygienic_kdf env _ _ _ _) fun _ => .ite (fun _ => .pure _) fun _ => .pure _

theorem hygienic_advanceLoop : ∀ (n : Nat) (buf : PingPong),
    Hygienic (advanceLoop env.on n buf) (advanceLoop env.off n buf)
  | 0, _ => .pure _
  | n + 1, _ => .bind (hygienic_cryptoUpdateSk env _ _) fun _ =>
    .ite (fun _ => .pure _) fun _ => hygienic_advanceLoop n _

theorem hygienic_cryptoAdvanceSk (sk0 : Bytes skLen) (counter : UInt32) (skI : Bytes skLen) :
    Hygienic (cryptoAdvanceSk env.on sk0 counter skI) (cryptoAdvanceSk env.off sk0 counter skI) := by
  refine .bind (hygienic_advanceLoop env _ _) fun w => .ite (fun _ => ?_) fun _ => ?_
  · exact .bind (.leaveScrubbed env _ _ _) fun _ => .bind (.leaveScrubbed env _ _ _) fun _ => .pure _
  · exact .bind (.leaveScrubbed env _ _ _) fun _ => .bind (.leaveScrubbed env _ _ _) fun _ => .pure _

/-- `compute_d` stores nothing when it fails. -/
theorem computeD_err {d0 : Bytes dLen} {u v : List UInt8} {dI : Buf dLen} {w : World}
    (h : ((computeD d0 u v dI).run w).1.1 ≠ .ok) : ((computeD d0 u v dI).run w).1.2 = dI := by
  rcases computeD_chain d0 u v dI w with ⟨-, hrun⟩ | ⟨-, hrun, -⟩
  · rw [hrun] at h
    exact absurd rfl h
  · rw [hrun]

/-- A call of a primitive, and what follows with its result or without one. -/
theorem Hygienic.call {α β : Type} {r : Option β} {f : Option β → CryptoM α} (hnone : Hygienic (f none) (f none))
    (hsome : ∀ b, Hygienic (f (some b)) (f (some b))) :
    Hygienic (Crypto.primCall r >>= f) (Crypto.primCall r >>= f) := by
  refine .bind (.primCall r) fun w => ?_
  cases ((Crypto.primCall r).run w).1 with
  | none => exact hnone
  | some b => exact hsome b

theorem hygienic_computeD (d0 : Bytes dLen) (u v : List UInt8) (dI : Buf dLen) :
    Hygienic (computeD d0 u v dI) (computeD d0 u v dI) :=
  .call (.pure _) fun _ => .call (.pure _) fun _ => .call (.pure _) fun _ => .call (.pure _) fun _ =>
  .call (.pure _) fun _ => .call (.pure _) fun _ => .call (.pure _) fun _ => .call (.pure _) fun _ =>
  .call (.pure _) fun _ => .pure _

theorem hygienic_ueccComputePublicKey (d : Bytes dLen) (pk : Buf pubKeyLen) :
    Hygienic (ueccComputePublicKey env.on d pk) (ueccComputePublicKey env.off d pk) :=
  .ite (fun _ => .pure _) fun _ => .ite (fun _ => .pure _) fun _ => .call (.pure _) fun _ => .pure _

/-- `uECC_compute_public_key` stores nothing when it fails. -/
theorem ueccComputePublicKey_fails {d : Bytes dLen} {pk : Buf pubKeyLen} {w : World}
    (h : ((ueccComputePublicKey env d pk).run w).1.1 ≠ true) : ((ueccComputePublicKey env d pk).run w).1.2 = pk := by
  cases hk : publicKey env d with
  | none =>
    obtain ⟨k, hrun⟩ := ueccComputePublicKey_none hk pk w
    rw [hrun]
  | some key =>
    rw [ueccComputePublicKey_some hk] at h ⊢
    by_cases hf : w.sched.now = .ok
    · rw [if_pos hf] at h
      exact absurd rfl h
    · rw [if_neg hf]

theorem hygienic_dToP (d : Bytes dLen) (p : Bytes pLen) : Hygienic (dToP env.on d p) (dToP env.off d p) := by
  refine .bind (hygienic_ueccComputePublicKey env _ _) fun w => .ite (fun hret => ?_) fun _ => ?_
  · -- `full_key` is not scrubbed here, but nothing was stored in it
    refine .bind (.leave _ ?_) fun _ => .pure _
    rw [ueccComputePublicKey_fails env.on hret]
    exact Buf.clean_fresh _ _
  · exact .bind (.leaveScrubbed env _ _ _) fun _ => .bind (.leaveScrubbed env _ _ _) fun _ => .pure _

theorem hygienic_cryptoDeriveP (d0 : Bytes dLen) (skI : Bytes skLen) (pI : Bytes pLen) :
    Hygienic (cryptoDeriveP env.on d0 skI pI) (cryptoDeriveP env.off d0 skI pI) := by
  refine .bind (hygienic_kdf env _ _ _ _) fun w => .ite (fun _ => ?_) fun _ => ?_
  · exact .bind (.leaveScrubbed env _ _ _) fun _ => .pure _
  refine .bind (hygienic_computeD _ _ _ _) fun w => .ite (fun hrc => ?_) fun _ => ?_
  · -- `d_i` is not scrubbed here, but nothing was stored in it
    refine .bind (.leaveScrubbed env _ _ _) fun _ => .bind (.leave _ ?_) fun _ => .pure _
    rw [computeD_err hrc]
    exact Buf.clean_fresh _ _
  refine .bind (hygienic_dToP env _ _) fun _ => .bind (.leaveScrubbed env _ _ _) fun _ => ?_
  exact .bind (.leaveScrubbed env _ _ _) fun _ => .ite (fun _ => .pure _) fun _ => .pure _

/-! ## The buffers they have -/

theorem leaves_kdf (z : Bytes skLen) (info : Label) (out : Buf m) (outLen : Nat) (w : World) :
    ∀ name ∈ [Local.inBuf, Local.block], Leaves name (kdf env.on z info out outLen) w := by
  have hlen : ¬ skLen + counterLen + info.val.length > maxBufLen :=
    not_lt.2 (le_trans (Nat.add_le_add_left info.2.2 _) (by decide))
  intro name hname
  unfold kdf
  simp only [hlen, if_false]
  exact .after (hygienic_kdfLoop env _ _ _ _ _ _ _).grows (leaves_both _ _ _ _ (.pure _) _ name hname)

theorem leaves_cryptoUpdateSk (skPrev : Bytes skLen) (skNext : Buf skLen) (w : World) :
    ∀ name ∈ [Local.inBuf, Local.block], Leaves name (cryptoUpdateSk env.on skPrev skNext) w := fun name hname =>
  .bind (leaves_kdf env _ _ _ _ w name hname) fun _ => .ite (.pure _) (.pure _)

theorem leaves_cryptoAdvanceSk (sk0 : Bytes skLen) (counter : UInt32) (skI : Bytes skLen) (w : World) :
    ∀ name ∈ [Local.buf false, Local.buf true], Leaves name (cryptoAdvanceSk env.on sk0 counter skI) w := by
  intro name hname
  refine .after (hygienic_advanceLoop env _ _).grows (.ite (fun _ => ?_) fun _ => ?_)
  · exact leaves_both _ _ _ _ (.pure _) _ name hname
  · exact leaves_both _ _ _ _ (.pure _) _ name hname

/-- The local buffers of `d_to_p` where it returns `rc`: `compressed_key` is declared once there is a
public key. -/
def dToPLocals (rc : Status) : List Local := if rc = .ok then [.fullKey, .compressedKey] else [.fullKey]

theorem leaves_dToP (d : Bytes dLen) (p : Bytes pLen) (w : World) :
    ∀ name ∈ dToPLocals ((dToP env.on d p).run w).1.1, Leaves name (dToP env.on d p) w := by
  intro name hname
  unfold dToP at hname ⊢
  refine .after (hygienic_ueccComputePublicKey env _ _).grows ?_
  simp only [Prog.run_bind] at hname
  generalize (ueccComputePublicKey env.on d _).run w = r at hname ⊢
  obtain ⟨⟨ret, fullKey⟩, w₁⟩ := r
  simp only [Prog.run_ite, Prog.run_bind, Prog.run_pure] at hname
  refine .ite (fun hret => ?_) fun hret => ?_
  · rw [if_pos hret, dToPLocals, if_neg (by simp), List.mem_singleton] at hname
    rw [hname]
    exact .bind (.leave _ _ _) fun _ => .pure _
  · rw [if_neg hret, dToPLocals, if_pos rfl] at hname
    exact leaves_both _ _ _ _ (.pure _) _ name hname

/-- The local buffers of `crypto_derive_p` where its KDF returns `rc`: `d_i` is declared once there
is a `uv`. -/
def deriveLocals (rc : Status) : List Local := if rc = .ok then [.uv, .dI] else [.uv]

theorem leaves_cryptoDeriveP (d0 : Bytes dLen) (skI : Bytes skLen) (pI : Bytes pLen) (w : World) :
    ∀ name ∈ deriveLocals
        ((kdf env.on skI labelDiversify (Buf.fresh env.junk diversifyLen) diversifyLen).run w).1.1,
      Leaves name (cryptoDeriveP env.on d0 skI pI) w := by
  intro name hname
  unfold cryptoDeriveP
  refine .after (hygienic_kdf env _ _ _ _).grows ?_
  rw [show env.junk = env.on.junk from rfl] at hname
  generalize (kdf env.on skI labelDiversify _ _).run w = r at hname ⊢
  obtain ⟨⟨rc, uv⟩, w₁⟩ := r
  refine .ite (fun hrc => ?_) fun hrc => ?_
  · rw [deriveLocals, if_neg hrc, List.mem_singleton] at hname
    rw [hname]
    exact .bind (.leave _ _ _) fun _ => .pure _
  rw [deriveLocals, if_pos (not_not.1 hrc)] at hname
  refine .after (hygienic_computeD _ _ _ _).grows (.ite (fun _ => ?_) fun _ => ?_)
  · exact leaves_both _ _ _ _ (.pure _) _ name hname
  · exact .after (hygienic_dToP env _ _).grows
      (leaves_both _ _ _ _ (.ite (.pure _) (.pure _)) _ name hname)

end

end Crypto

/-! ## `tag.c` -/

theorem hygienic_tagRotate (env : Env) (tag : Tag) : Hygienic (tagRotate env.on tag) (tagRotate env.off tag) := by
  unfold tagRotate
  refine .bind (hygienic_cryptoUpdateSk env _ _) fun w => .ite (fun _ => ?_) fun _ => ?_
  · exact .bind (.leaveScrubbed env _ _ _) fun _ => .pure _
  refine .bind (hygienic_cryptoDeriveP env _ _ _) fun _ => .ite (fun _ => ?_) fun _ => ?_
  · exact .bind (.leaveScrubbed env _ _ _) fun _ => .pure _
  · exact .bind (.leaveScrubbed env _ _ _) fun _ => .pure _

theorem leaves_tagRotate (env : Env) (tag : Tag) (w : World) : Leaves .skNext (tagRotate env.on tag) w := by
  unfold tagRotate
  refine .after (hygienic_cryptoUpdateSk env _ _).grows (.ite (fun _ => ?_) fun _ => ?_)
  · exact .bind (.leave _ _ _) fun _ => .pure _
  refine .after (hygienic_cryptoDeriveP env _ _ _).grows (.ite (fun _ => ?_) fun _ => ?_)
  · exact .bind (.leave _ _ _) fun _ => .pure _
  · exact .bind (.leave _ _ _) fun _ => .pure _

/-- With `CONFIG_ESPTAG_ZEROIZE` set no working buffer keeps what was stored in it, whichever calls
fail, and the statuses and outputs are those of a build without it. -/
theorem scrubbed_everyPath (env : Env) (w : World) :
    (∀ (m : Nat) (z : Bytes skLen) (info : Label) (out : Buf m) (outLen : Nat),
      Scrubbed [.inBuf, .block] (kdf env.on z info out outLen) (kdf env.off z info out outLen) w) ∧
    (∀ (skPrev : Bytes skLen) (skNext : Buf skLen),
      Scrubbed [.inBuf, .block] (cryptoUpdateSk env.on skPrev skNext) (cryptoUpdateSk env.off skPrev skNext) w) ∧
    (∀ (sk0 : Bytes skLen) (counter : UInt32) (skI : Bytes skLen),
      Scrubbed [.buf false, .buf true] (cryptoAdvanceSk env.on sk0 counter skI)
        (cryptoAdvanceSk env.off sk0 counter skI) w) ∧
    (∀ (d : Bytes dLen) (p : Bytes pLen),
      Scrubbed (dToPLocals ((dToP env.on d p).run w).1.1) (dToP env.on d p) (dToP env.off d p) w) ∧
    (∀ (d0 : Bytes dLen) (skI : Bytes skLen) (pI : Bytes pLen),
      Scrubbed (deriveLocals
          ((kdf env.on skI labelDiversify (Buf.fresh env.junk diversifyLen) diversifyLen).run w).1.1)
        (cryptoDeriveP env.on d0 skI pI) (cryptoDeriveP env.off d0 skI pI) w) ∧
    ∀ tag : Tag, Scrubbed [.skNext] (tagRotate env.on tag) (tagRotate env.off tag) w :=
  ⟨fun _ z info out outLen => (hygienic_kdf env z info out outLen).scrubbed (leaves_kdf env z info out outLen w),
    fun skPrev skNext => (hygienic_cryptoUpdateSk env skPrev skNext).scrubbed (leaves_cryptoUpdateSk env _ _ w),
    fun sk0 counter skI =>
      (hygienic_cryptoAdvanceSk env sk0 counter skI).scrubbed (leaves_cryptoAdvanceSk env sk0 counter skI w),
    fun d p => (hygienic_dToP env d p).scrubbed (leaves_dToP env d p w),
    fun d0 skI pI => (hygienic_cryptoDeriveP env d0 skI pI).scrubbed (leaves_cryptoDeriveP env d0 skI pI w),
    fun tag => (hygienic_tagRotate env tag).scrubbed (by simpa using leaves_tagRotate env tag w)⟩

end Esptag
