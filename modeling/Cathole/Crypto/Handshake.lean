import Cathole.Config

/-!
# Starting a Noise handshake

`handshake` of `crypto.rs`: the prologue that binds the handshake to its QUIC
connection and its purpose, and the static keys the builder is given. Snow and
the TLS exporter are outside the repository. A `Snow` says what one call of the
library does; it differs from call to call, because key pairs are random.

Validation asks for the keys a pattern needs in a role, `handshake` reads the
keys that are there.
-/

namespace Cathole

structure Builder where
  pattern : String
  prologue : Bytes
  localPrivateKey : Option Bytes := none
  remotePublicKey : Option Bytes := none
  deriving DecidableEq, Repr

structure Snow (σ : Type) where
  parses : String → Bool
  takesPrologue : Bytes → Bool
  -- The private half of a new key pair.
  generateKeypair : String → Option Bytes
  takesKey : Bytes → Bool
  build : Builder → Bool → Option σ

abbrev Binding := { bytes : Bytes // bytes.length = 32 }

def Binding.prologue (binding : Binding) (purpose : Bytes) : Bytes :=
  "cathole/1".toUTF8.data.toList ++ binding.val ++ purpose

section

variable {σ : Type} (snow : Snow σ) (decode : String → Option Bytes)
  (exporter : String → Bytes → Option Binding)

namespace Noise

/-- `local` in `handshake`. -/
def localKey (cfg : Noise) : Except Fault (Option Bytes) :=
  let pattern := cfg.handshake.getD ""
  if cfg.localPrivateKey.isSome then do
    let k ← Config.key decode cfg.localPrivateKey
    pure (some k)
  else if pattern = "XX" then do
    accept (snow.parses cfg.pattern) .noise
    let generated ← orFault (snow.generateKeypair cfg.pattern) .noise
    pure (some generated)
  else pure none

/-- `remote` in `handshake`. -/
def remoteKey (cfg : Noise) : Except Fault (Option Bytes) :=
  if cfg.remotePublicKey.isSome then do
    let k ← Config.key decode cfg.remotePublicKey
    pure (some k)
  else pure none

end Noise

/-- The builder at the end of `handshake`. -/
def handshakeBuilder (cfg : Noise) (purpose : Bytes) : Except Fault Builder := do
  let binding ← context (exporter "cathole-noise-v1" purpose) "TLS exporter failed"
  let prologue := binding.prologue purpose
  accept (snow.parses cfg.pattern) .noise
  accept (snow.takesPrologue prologue) .noise
  let localKey ← cfg.localKey snow decode
  let remoteKey ← cfg.remoteKey decode
  accept (localKey.all snow.takesKey) .noise
  accept (remoteKey.all snow.takesKey) .noise
  pure
    { pattern := cfg.pattern
      prologue
      localPrivateKey := localKey
      remotePublicKey := remoteKey }

def handshake (cfg : Noise) (initiator : Bool) (purpose : Bytes) : Except Fault σ := do
  let b ← handshakeBuilder snow decode exporter cfg purpose
  orFault (snow.build b initiator) .noise

end

-- ---------------------------------------------------------------------------
-- The keys a handshake needs
-- ---------------------------------------------------------------------------

/-- The builder has every static key its pattern needs for the role. -/
def Builder.Complete (b : Builder) (initiator : Bool) : Prop :=
  (b.pattern = Noise.nk →
    if initiator then b.remotePublicKey.isSome else b.localPrivateKey.isSome) ∧
  (b.pattern = Noise.kk → b.localPrivateKey.isSome ∧ b.remotePublicKey.isSome) ∧
  (b.pattern = Noise.xx → b.localPrivateKey.isSome)

instance (b : Builder) (initiator : Bool) : Decidable (b.Complete initiator) :=
  inferInstanceAs (Decidable (_ ∧ _ ∧ _))

def Builder.Sized (b : Builder) : Prop :=
  (∀ k ∈ b.localPrivateKey, k.length = 32) ∧ ∀ k ∈ b.remotePublicKey, k.length = 32

instance (b : Builder) : Decidable b.Sized := inferInstanceAs (Decidable (_ ∧ _))

/-- What `handshake` relies on: snow knows the three patterns, makes key pairs of
32 bytes for them, takes keys of 32 bytes, and builds a state from a builder of a
known pattern with the keys it needs. Nothing is asked of other patterns or keys. -/
structure Snow.Lawful (snow : Snow σ) : Prop where
  parses : ∀ pattern ∈ [Noise.nk, Noise.kk, Noise.xx], snow.parses pattern = true
  takesPrologue : ∀ prologue, snow.takesPrologue prologue = true
  generates : ∀ pattern ∈ [Noise.nk, Noise.kk, Noise.xx],
    ∃ k, snow.generateKeypair pattern = some k ∧ k.length = 32
  takesKey : ∀ k : Bytes, k.length = 32 → snow.takesKey k = true
  builds : ∀ b initiator, b.pattern ∈ [Noise.nk, Noise.kk, Noise.xx] → b.Complete initiator →
    b.Sized → ∃ state, snow.build b initiator = some state

/-- Every key that is configured is the encoding of 32 bytes, whether the
pattern needs it or not. -/
def Noise.KeysDecode (decode : String → Option Bytes) (noise : Noise) : Prop :=
  ∀ text, noise.localPrivateKey = some text ∨ noise.remotePublicKey = some text →
    ∃ k, decode text = some k ∧ k.length = 32

section

variable {snow : Snow σ} {decode : String → Option Bytes}
  {exporter : String → Bytes → Option Binding} {noise : Noise}

namespace Noise

theorem localKey_some (htext : noise.localPrivateKey = some text)
    (h : noise.localKey snow decode = .ok key) :
    ∃ k, decode text = some k ∧ k.length = 32 ∧ key = some k := by
  simp only [localKey, htext, Option.isSome_some, ↓reduceIte, bind_eq_ok, pure_eq_ok, key_ok] at h
  obtain ⟨k, ⟨_, ⟨⟩, hk, hlen⟩, rfl⟩ := h
  exact ⟨k, hk, hlen, rfl⟩

theorem remoteKey_some (htext : noise.remotePublicKey = some text)
    (h : noise.remoteKey decode = .ok key) :
    ∃ k, decode text = some k ∧ k.length = 32 ∧ key = some k := by
  simp only [remoteKey, htext, Option.isSome_some, ↓reduceIte, bind_eq_ok, pure_eq_ok, key_ok] at h
  obtain ⟨k, ⟨_, ⟨⟩, hk, hlen⟩, rfl⟩ := h
  exact ⟨k, hk, hlen, rfl⟩

/-- XX gets a local key in any case. -/
theorem localKey_of_decode (hsnow : snow.Lawful) (hpattern : noise.pattern ∈ [nk, kk, xx])
    (hkeys : noise.KeysDecode decode) :
    ∃ key, noise.localKey snow decode = .ok key ∧ (∀ k, key = some k → k.length = 32) ∧
      (noise.localPrivateKey.isSome ∨ noise.pattern = xx → key.isSome) := by
  unfold localKey
  cases hl : noise.localPrivateKey with
  | some text =>
    obtain ⟨k, hk, hlen⟩ := hkeys text (.inl hl)
    have hkey : Config.key decode (some text) = .ok k := key_ok.mpr ⟨text, rfl, hk, hlen⟩
    refine ⟨some k, by simp [hkey], ?_, by simp⟩
    rintro k' ⟨⟩
    exact hlen
  | none =>
    by_cases hxx : noise.handshake.getD "" = "XX"
    · obtain ⟨k, hk, hlen⟩ := hsnow.generates noise.pattern hpattern
      have hparses : accept (snow.parses noise.pattern) .noise = .ok () :=
        accept_eq_ok.mpr (hsnow.parses _ hpattern)
      refine ⟨some k, by simp [hxx, hparses, hk, orFault, ok_bind], ?_, by simp⟩
      rintro k' ⟨⟩
      exact hlen
    · refine ⟨none, if_neg hxx, by simp, ?_⟩
      rintro (h | h)
      · cases h
      · exact absurd (by rw [handshake_xx h]; rfl) hxx

theorem remoteKey_of_decode (hkeys : noise.KeysDecode decode) :
    ∃ key, noise.remoteKey decode = .ok key ∧ (∀ k, key = some k → k.length = 32) ∧
      (noise.remotePublicKey.isSome → key.isSome) := by
  unfold remoteKey
  cases hr : noise.remotePublicKey with
  | none => exact ⟨none, rfl, by simp, by simp⟩
  | some text =>
    obtain ⟨k, hk, hlen⟩ := hkeys text (.inr hr)
    have hkey : Config.key decode (some text) = .ok k := key_ok.mpr ⟨text, rfl, hk, hlen⟩
    refine ⟨some k, by simp [hkey], ?_, by simp⟩
    rintro k' ⟨⟩
    exact hlen

end Noise

theorem handshakeBuilder_ok (h : handshakeBuilder snow decode exporter noise purpose = .ok b) :
    b.pattern = noise.pattern ∧ noise.localKey snow decode = .ok b.localPrivateKey ∧
      noise.remoteKey decode = .ok b.remotePublicKey := by
  simp only [handshakeBuilder, bind_eq_ok, pure_eq_ok] at h
  obtain ⟨_, -, _, -, _, -, localKey, hlocal, remoteKey, hremote, _, -, _, -, rfl⟩ := h
  exact ⟨rfl, hlocal, hremote⟩

section

variable (hsnow : snow.Lawful) (hexport : exporter "cathole-noise-v1" purpose = some binding)
  (hpattern : noise.pattern ∈ [Noise.nk, Noise.kk, Noise.xx])
  (hlocal : noise.localKey snow decode = .ok localKey)
  (hremote : noise.remoteKey decode = .ok remoteKey)
  (hsized : (Builder.mk noise.pattern (binding.prologue purpose) localKey remoteKey).Sized)
include hsnow hexport hpattern hlocal hremote hsized

theorem handshakeBuilder_eq : handshakeBuilder snow decode exporter noise purpose =
    .ok ⟨noise.pattern, binding.prologue purpose, localKey, remoteKey⟩ := by
  have htakes : ∀ key : Option Bytes, (∀ k ∈ key, k.length = 32) →
      key.all snow.takesKey = true := by
    intro key hkey
    cases key with
    | none => rfl
    | some k => exact hsnow.takesKey k (hkey k rfl)
  simp only [handshakeBuilder, hexport, hlocal, hremote, context, accept, hsnow.parses _ hpattern,
    hsnow.takesPrologue, htakes _ hsized.1, htakes _ hsized.2, ↓reduceIte, ok_bind]
  rfl

theorem handshake_starts
    (hcomplete : (Builder.mk noise.pattern (binding.prologue purpose) localKey remoteKey).Complete
      initiator) :
    ∃ state, handshake snow decode exporter noise initiator purpose = .ok state := by
  obtain ⟨state, hstate⟩ := hsnow.builds _ _ hpattern hcomplete hsized
  refine ⟨state, ?_⟩
  rw [handshake, handshakeBuilder_eq hsnow hexport hpattern hlocal hremote hsized, ok_bind, hstate]
  rfl

end

theorem Side.Accepted.needed (h : Side.Accepted decode server side) :
    side.transport.noise.pattern ∈ [Noise.nk, Noise.kk, Noise.xx] ∧
    (side.transport.noise.pattern = Noise.nk →
      (server = true → side.transport.noise.localPrivateKey.isSome) ∧
        (server = false → side.transport.noise.remotePublicKey.isSome)) ∧
    (side.transport.noise.pattern = Noise.kk →
      side.transport.noise.localPrivateKey.isSome ∧
      side.transport.noise.remotePublicKey.isSome) := by
  have hsome : ∀ value : Option String, (∃ k, Config.key decode value = .ok k) → value.isSome := by
    rintro value ⟨k, hk⟩
    obtain ⟨text, rfl, -⟩ := key_ok.mp hk
    rfl
  rcases validateNoise_ok h.noise with ⟨hnk, hserver, hclient⟩ | ⟨hkk, hlocal, hremote⟩ | ⟨hxx, -⟩
  · rw [hnk]
    refine ⟨by simp, fun _ => ⟨fun hs => hsome _ (hserver hs), fun hs => hsome _ (hclient hs)⟩, ?_⟩
    intro hno
    exact absurd hno (by decide)
  · rw [hkk]
    refine ⟨by simp, ?_, fun _ => ⟨hsome _ hlocal, hsome _ hremote⟩⟩
    intro hno
    exact absurd hno (by decide)
  · rw [hxx]
    refine ⟨by simp, ?_, ?_⟩
    · intro hno
      exact absurd hno (by decide)
    · intro hno
      exact absurd hno (by decide)

/-- A side that passed validation starts its handshakes, with every key its
pattern needs, exactly when every key it configures decodes. Validation only
looks at the keys the pattern needs. -/
theorem accepted_starts_iff (hsnow : snow.Lawful) (hside : validateSide decode s server = .ok side)
    (hexport : exporter "cathole-noise-v1" purpose = some binding) :
    (∃ b, handshakeBuilder snow decode exporter side.transport.noise purpose = .ok b ∧
      b.Complete (!server) ∧
      ∃ state, handshake snow decode exporter side.transport.noise (!server) purpose = .ok state) ↔
      side.transport.noise.KeysDecode decode := by
  obtain ⟨hpattern, hnk, hkk⟩ := (validateSide_accepted hside).needed
  constructor
  · rintro ⟨b, hb, -⟩ text htext
    obtain ⟨-, hlocal, hremote⟩ := handshakeBuilder_ok hb
    rcases htext with htext | htext
    · obtain ⟨k, hk, hlen, -⟩ := Noise.localKey_some htext hlocal
      exact ⟨k, hk, hlen⟩
    · obtain ⟨k, hk, hlen, -⟩ := Noise.remoteKey_some htext hremote
      exact ⟨k, hk, hlen⟩
  · intro hkeys
    obtain ⟨localKey, hlocal, hlen, hsome⟩ := Noise.localKey_of_decode hsnow hpattern hkeys
    obtain ⟨remoteKey, hremote, hlen', hsome'⟩ := Noise.remoteKey_of_decode hkeys
    have hcomplete : (Builder.mk side.transport.noise.pattern (binding.prologue purpose) localKey
        remoteKey).Complete (!server) := by
      refine ⟨fun h => ?_, fun h => ?_, fun h => hsome (.inr h)⟩
      · cases server with
        | true => exact hsome (.inl ((hnk h).1 rfl))
        | false => exact hsome' ((hnk h).2 rfl)
      · exact ⟨hsome (.inl (hkk h).1), hsome' (hkk h).2⟩
    have hsized : (Builder.mk side.transport.noise.pattern (binding.prologue purpose) localKey
        remoteKey).Sized := ⟨hlen, hlen'⟩
    exact ⟨_, handshakeBuilder_eq hsnow hexport hpattern hlocal hremote hsized, hcomplete,
      handshake_starts hsnow hexport hpattern hlocal hremote hsized hcomplete⟩

end

namespace Sample

def zeroKey : String := "AAAAAAAAAAAAAAAAAAAAAAAAAAAAAAAAAAAAAAAAAAA="

def base64 (text : String) : Option Bytes :=
  if text = zeroKey then some (List.replicate 32 0) else none

def snow : Snow Builder where
  parses pattern := [Noise.nk, Noise.kk, Noise.xx].contains pattern
  takesPrologue _ := true
  generateKeypair pattern :=
    if [Noise.nk, Noise.kk, Noise.xx].contains pattern then some (List.replicate 32 7) else none
  takesKey k := k.length == 32
  build b initiator :=
    if b.pattern ∈ [Noise.nk, Noise.kk, Noise.xx] ∧ b.Complete initiator ∧ b.Sized then some b
    else none

theorem snow_lawful : snow.Lawful where
  parses := by simp [snow]
  takesPrologue := fun _ => rfl
  generates := fun pattern h => ⟨List.replicate 32 7, if_pos (List.contains_iff_mem.mpr h), by simp⟩
  takesKey := by simp [snow]
  builds := fun b initiator hpattern hcomplete hsized => ⟨b, if_pos ⟨hpattern, hcomplete, hsized⟩⟩

def exporter : String → Bytes → Option Binding := fun _ _ => some ⟨List.replicate 32 1, by simp⟩

/-- An NK client with a local key, which NK does not use. -/
def nkClient (localPrivateKey : String) : Side where
  remoteAddr := some "192.0.2.1:2333"
  defaultToken := some "s3cret"
  transport :=
    { noise := { localPrivateKey := some localPrivateKey, remotePublicKey := some zeroKey } }
  services :=
    { entries := [("web", { localAddr := some "127.0.0.1:8080" })]
      sorted := by decide +kernel }

end Sample

open Sample in
theorem accepted_starts_nk :
    validateSide base64 (nkClient zeroKey) false = .ok ((nkClient zeroKey).withHeartbeat false) ∧
      ∃ state, handshake snow base64 exporter (nkClient zeroKey).transport.noise true [] =
        .ok state := by
  have hside : validateSide base64 (nkClient zeroKey) false =
      .ok ((nkClient zeroKey).withHeartbeat false) := by
    decide +kernel
  have hkeys : (nkClient zeroKey).transport.noise.KeysDecode base64 := by
    intro text h
    obtain rfl : zeroKey = text := by
      rcases h with h | h
      · exact Option.some.inj h
      · exact Option.some.inj h
    exact ⟨_, if_pos rfl, by simp⟩
  have hexport : exporter "cathole-noise-v1" [] = some ⟨List.replicate 32 1, by simp⟩ := rfl
  obtain ⟨b, -, -, hstate⟩ := (accepted_starts_iff snow_lawful hside hexport).mpr hkeys
  exact ⟨hside, hstate⟩

open Sample in
/-- The configuration is accepted, and every handshake fails before its first
message. -/
theorem accepted_never_starts :
    validateSide base64 (nkClient "not a key") false =
        .ok ((nkClient "not a key").withHeartbeat false) ∧
      ∀ purpose, handshake snow base64 exporter (nkClient "not a key").transport.noise
        true purpose =
        .error .base64 := by
  refine ⟨by decide +kernel, fun purpose => ?_⟩
  have hlocal : (nkClient "not a key").transport.noise.localKey snow base64 = .error .base64 := by
    decide +kernel
  have hparses : snow.parses (nkClient "not a key").transport.noise.pattern = true := by
    decide +kernel
  simp only [handshake, handshakeBuilder, exporter, context, accept, hparses, hlocal, ok_bind,
    error_bind, ↓reduceIte]
  rfl

end Cathole
