import TinyCrypto.Hash.Core

/-! # DRBG envelope

`drbg.c` and `drbg_random.c`: instantiate, reseed, generate and the random source over
any mechanism. The algorithms of the mechanisms and the entropy source are
parameters. Checks of pointers and overlaps are left out. Every call also tells what
it read, seeded and produced, in order.
-/

namespace TinyCrypto.Drbg

open Hash (Algorithm)

/-- `TC_DRBG_mechanism`. -/
inductive Mechanism where
  | hash
  | hmac
  | ctr
  deriving DecidableEq

/-- What a build contains, and `TC_DRBG_MAX_ENTROPY_BYTES`. -/
structure Build where
  mechanisms : Mechanism → Bool
  hashes : Algorithm → Bool
  maxEntropyBytes : Nat

/-- `TC_DRBG_config`. An identifier outside its enumeration is none. -/
structure Config where
  mechanism : Option Mechanism
  hash : Option Algorithm
  aesKeyBytes : Nat
  derivationFunction : Nat
  predictionResistance : Nat
  entropyBytes : Nat
  reseedInterval : Nat
  deriving DecidableEq

/-- `tc_drbg_parameters`. -/
structure Parameters where
  strengthBits : Nat
  seedBytes : Nat
  outputBytes : Nat
  keyBytes : Nat
  usesNonce : Bool
  inputIsSeed : Bool
  deriving DecidableEq

def maxRequestBytes : Nat := 65536
def maxReseedInterval : Nat := 2 ^ 48

/-- `TC_DRBG_MAX_INPUT_BYTES`. -/
def Build.maxInputBytes (build : Build) : Nat := 0xffffffff - build.maxEntropyBytes

/-- `TC_DRBG`, with the working state V, Key or C of the mechanism. -/
structure Instance (S : Type) where
  marker : Bool
  mechanism : Option Mechanism
  hash : Option Algorithm
  keyBytes : Nat
  seedBytes : Nat
  outputBytes : Nat
  derivationFunction : Nat
  predictionResistance : Nat
  failed : Bool
  strengthBits : Nat
  entropyBytes : Nat
  reseedCounter : Nat
  reseedInterval : Nat
  entropy : Nat
  input : Bytes
  state : S
  deriving DecidableEq

/-- What a call did, in order: an entropy read and its success, a seeding with the
    interval it starts, output of the mechanism, a failure of the mechanism. -/
inductive Event where
  | read (ok : Bool)
  | seeded (interval : Nat)
  | produced
  | failed
  deriving DecidableEq

/-- The algorithms of section 10 and the entropy sources. `E` is the state of the
    sources, which `entropy` of an instantiation names. -/
structure Parts (S E : Type) where
  blank : S
  seed : Instance S → List Bytes → Bool → Bool × S
  generate : Instance S → Nat → Bytes → Bool × S × Bytes
  fill : Nat → Nat → E → Bool × Bytes × E

/-- `tc_drbg_hash_strength`. -/
def hashStrength : Algorithm → Nat
  | .sha1 => 128
  | .sha224 => 192
  | .sha256 | .sha384 | .sha512 => 256

/-- `tc_drbg_hash_parameters`. -/
def hashParameters (build : Build) (hash : Option Algorithm) : Except Result Parameters :=
  match hash with
  | none => .error .argument
  | some hash =>
    if !build.hashes hash then .error .unsupported
    else
      .ok
        { strengthBits := hashStrength hash
          seedBytes := if hash = .sha384 || hash = .sha512 then 111 else 55
          outputBytes := hash.digestLength
          keyBytes := 0
          usesNonce := true
          inputIsSeed := false }

/-- `tc_drbg_hmac_parameters`. -/
def hmacParameters (build : Build) (hash : Option Algorithm) : Except Result Parameters :=
  match hash with
  | none => .error .argument
  | some hash =>
    if !build.hashes hash then .error .unsupported
    else
      .ok
        { strengthBits := hashStrength hash
          seedBytes := hash.digestLength
          outputBytes := hash.digestLength
          keyBytes := 0
          usesNonce := true
          inputIsSeed := false }

/-- `tc_drbg_ctr_parameters`. -/
def ctrParameters (keyBytes derivationFunction : Nat) : Except Result Parameters :=
  if keyBytes ≠ 16 && keyBytes ≠ 24 && keyBytes ≠ 32 then .error .argument
  else
    .ok
      { strengthBits := keyBytes * 8
        seedBytes := keyBytes + 16
        outputBytes := 16
        keyBytes
        usesNonce := derivationFunction ≠ 0
        inputIsSeed := derivationFunction = 0 }

/-- `mechanism_parameters`. -/
def mechanismParameters (build : Build) (config : Config) : Except Result Parameters :=
  match config.mechanism with
  | none => .error .argument
  | some mechanism =>
    if !build.mechanisms mechanism then .error .unsupported
    else
      match mechanism with
      | .hash => hashParameters build config.hash
      | .hmac => hmacParameters build config.hash
      | .ctr => ctrParameters config.aesKeyBytes config.derivationFunction

section

variable {S E : Type} (build : Build) (parts : Parts S E)

namespace Instance

/-- `live`. -/
def live (drbg : Instance S) : Bool := drbg.marker && !drbg.failed

/-- `TC_DRBG_uninstantiate`. -/
def uninstantiated : Instance S where
  marker := false
  mechanism := none
  hash := none
  keyBytes := 0
  seedBytes := 0
  outputBytes := 0
  derivationFunction := 0
  predictionResistance := 0
  failed := false
  strengthBits := 0
  entropyBytes := 0
  reseedCounter := 0
  reseedInterval := 0
  entropy := 0
  input := []
  state := parts.blank

/-- `input_within_limit`. -/
def inputWithinLimit (length : Nat) : Bool := length ≤ build.maxInputBytes

/-- `input_length_valid`. -/
def inputLengthValid (drbg : Instance S) (length : Nat) : Bool := inputWithinLimit build length &&
    (drbg.mechanism ≠ some .ctr || drbg.derivationFunction ≠ 0 || length ≤ drbg.seedBytes)

/-- `read_entropy`. -/
def readEntropy (drbg : Instance S) (length : Nat) (env : E) : Result × Instance S × E :=
  match parts.fill drbg.entropy length env with
  | (true, bytes, env) => (.ok, { drbg with input := bytes }, env)
  | (false, _, env) => (.entropy, { drbg with input := [] }, env)

/-- `record`. -/
def record (drbg : Instance S) (ok : Bool) : Result × Instance S :=
  if ok then (.ok, drbg) else (.error, { drbg with failed := true })

end Instance

open Instance

/-- What a call leaves: the DRBG, the entropy sources, its result, its output buffer
    and its events. -/
structure Left (S E : Type) where
  drbg : Instance S
  env : E
  result : Result
  output : Bytes
  events : List Event

/-- The argument checks of `TC_DRBG_instantiate` before the mechanism is looked at. -/
def instantiateChecks (config : Config) (nonce personalization : Bytes) : Bool :=
  inputWithinLimit build nonce.length && inputWithinLimit build personalization.length &&
    personalization.length ≤ build.maxInputBytes - nonce.length &&
    config.predictionResistance ≤ 1 && config.derivationFunction ≤ 1 &&
    config.reseedInterval ≤ maxReseedInterval

/-- The lengths of the entropy input and of a nonce drawn with it, when the inputs
    suit the mechanism. -/
def instantiateLengths (config : Config) (parameters : Parameters)
    (nonce personalization : Bytes) : Option (Nat × Nat) :=
  let minimum :=
    if parameters.inputIsSeed then parameters.seedBytes else parameters.strengthBits / 8
  let entropyBytes := if config.entropyBytes = 0 then minimum else config.entropyBytes
  let nonceBytes :=
    if parameters.usesNonce && nonce.length = 0 then parameters.strengthBits / 16 else 0
  if entropyBytes < minimum || (parameters.inputIsSeed && entropyBytes ≠ minimum) ||
      entropyBytes > build.maxEntropyBytes - nonceBytes ||
      (!parameters.usesNonce && nonce.length ≠ 0) ||
      (parameters.usesNonce && nonce.length ≠ 0 && nonce.length < parameters.strengthBits / 16) ||
      (parameters.inputIsSeed && personalization.length > parameters.seedBytes) then
    none
  else some (entropyBytes, nonceBytes)

/-- `TC_DRBG_instantiate`. It starts by wiping the context it is given. -/
def instantiate (config : Config) (source : Nat) (nonce personalization : Bytes) (env : E) :
    Left S E :=
  let wiped := uninstantiated parts
  if !instantiateChecks build config nonce personalization then ⟨wiped, env, .argument, [], []⟩
  else
    match mechanismParameters build config with
    | .error result => ⟨wiped, env, result, [], []⟩
    | .ok parameters =>
      match instantiateLengths build config parameters nonce personalization with
      | none => ⟨wiped, env, .argument, [], []⟩
      | some (entropyBytes, nonceBytes) =>
        let drbg :=
          { wiped with
            mechanism := config.mechanism
            hash := config.hash
            keyBytes := parameters.keyBytes
            seedBytes := parameters.seedBytes
            outputBytes := parameters.outputBytes
            derivationFunction := config.derivationFunction
            predictionResistance := config.predictionResistance
            strengthBits := parameters.strengthBits
            entropyBytes
            reseedInterval :=
              if config.reseedInterval = 0 then maxReseedInterval else config.reseedInterval
            entropy := source }
        match drbg.readEntropy parts (entropyBytes + nonceBytes) env with
        | (.ok, drbg, env) =>
          let drawn := drbg.input.drop entropyBytes
          match parts.seed drbg
              [drbg.input.take entropyBytes, if nonceBytes ≠ 0 then drawn else nonce,
                personalization] false with
          | (true, state) =>
            ⟨{ drbg with input := [], state, reseedCounter := 1, marker := true }, env, .ok,
              [], [.read true, .seeded drbg.reseedInterval]⟩
          | (false, _) => ⟨wiped, env, .error, [], [.read true, .failed]⟩
        | (result, _, env) => ⟨wiped, env, result, [], [.read false]⟩

/-- `reseed`. -/
def reseed (drbg : Instance S) (additional : Bytes) (env : E) : Left S E :=
  match drbg.readEntropy parts drbg.entropyBytes env with
  | (.ok, drbg, env) =>
    let (ok, state) := parts.seed drbg [drbg.input.take drbg.entropyBytes, additional] true
    let (result, drbg) := { drbg with state }.record ok
    let drbg := { drbg with input := [] }
    if result = .ok then
      ⟨{ drbg with reseedCounter := 1 }, env, .ok, [], [.read true, .seeded drbg.reseedInterval]⟩
    else ⟨drbg, env, result, [], [.read true, .failed]⟩
  | (result, drbg, env) => ⟨drbg, env, result, [], [.read false]⟩

/-- `TC_DRBG_reseed`. -/
def reseedCall (drbg : Instance S) (additional : Bytes) (env : E) : Left S E :=
  if !drbg.live || !drbg.inputLengthValid build additional.length then
    ⟨drbg, env, .argument, [], []⟩
  else reseed parts drbg additional env

/-- The end of `TC_DRBG_generate`, after a reseed if there was one. -/
def produce (drbg : Instance S) (length : Nat) (additional : Bytes) (env : E) : Left S E :=
  let (ok, state, bytes) := parts.generate drbg length additional
  let (result, drbg) := { drbg with state }.record ok
  if result ≠ .ok then ⟨drbg, env, result, List.replicate length 0, [.failed]⟩
  else ⟨{ drbg with reseedCounter := drbg.reseedCounter + 1 }, env, .ok, bytes, [.produced]⟩

/-- `TC_DRBG_generate`, on a buffer with the given contents. -/
def generate (drbg : Instance S) (output : Bytes) (predictionResistance : Bool) (additional : Bytes)
    (env : E) : Left S E :=
  if !drbg.live || !drbg.inputLengthValid build additional.length ||
      (predictionResistance && drbg.predictionResistance = 0) then
    ⟨drbg, env, .argument, output, []⟩
  else if output.length > maxRequestBytes then ⟨drbg, env, .limit, output, []⟩
  else if predictionResistance || drbg.reseedCounter > drbg.reseedInterval then
    let seeded := reseed parts drbg additional env
    if seeded.result ≠ .ok then { seeded with output := List.replicate output.length 0 }
    else
      let left := produce parts seeded.drbg output.length [] seeded.env
      { left with events := seeded.events ++ left.events }
  else produce parts drbg output.length additional env

/-- The requests that `TC_DRBG_random` makes for a length. -/
def chunks (length : Nat) : List Nat := List.replicate (length / maxRequestBytes) maxRequestBytes ++
    if length % maxRequestBytes ≠ 0 || length = 0 then [length % maxRequestBytes] else []

/-- The loop of `TC_DRBG_random`. `written` is what the requests before wrote, and
    `output` the buffer from there on. -/
def randomLoop (drbg : Instance S) (env : E) (written output : Bytes) : List Nat → Left S E
  | [] => ⟨drbg, env, .ok, written ++ output, []⟩
  | chunk :: rest =>
    let left := generate build parts drbg (output.take chunk) false [] env
    if left.result ≠ .ok then
      let buffer := if left.result ≠ .argument then List.replicate (written ++ output).length 0
        else written ++ output
      { left with result := .error, output := buffer }
    else
      let later := randomLoop left.drbg left.env (written ++ left.output) (output.drop chunk) rest
      { later with events := left.events ++ later.events }

/-- `TC_DRBG_random`. The status TC_ERROR is `error`. -/
def random (drbg : Instance S) (output : Bytes) (env : E) : Left S E :=
  randomLoop build parts drbg env [] output (chunks output.length)

inductive Call where
  | instantiate (config : Config) (source : Nat) (nonce personalization : Bytes)
  | reseed (additional : Bytes)
  | generate (output : Bytes) (predictionResistance : Bool) (additional : Bytes)
  | random (output : Bytes)
  | uninstantiate
  deriving DecidableEq

def callLeft (drbg : Instance S) (env : E) : Call → Left S E
  | .instantiate config source nonce personalization =>
    instantiate build parts config source nonce personalization env
  | .reseed additional => reseedCall build parts drbg additional env
  | .generate output predictionResistance additional =>
    generate build parts drbg output predictionResistance additional env
  | .random output => random build parts drbg output env
  | .uninstantiate => ⟨uninstantiated parts, env, .ok, [], []⟩

structure Reply where
  result : Result
  output : Bytes
  events : List Event
  deriving DecidableEq

def step (s : Instance S × E) (call : Call) : Reply × (Instance S × E) :=
  let left := callLeft build parts s.1 s.2 call
  (⟨left.result, left.output, left.events⟩, (left.drbg, left.env))

end

end TinyCrypto.Drbg
