import Trunk.Firmware.Buffalo

/-! # Decryption undoes encryption

The stream cipher takes the same bytes from its state whatever it encrypts, and works in place also
where what it reads lies behind what it writes (`Trunk.Buffalo.exists_crypts`). With that, an image that
is encrypted is decrypted to what went into it (`Trunk.Buffalo.decrypt_encrypt`).
-/

namespace Trunk.Buffalo

open CString Memory Network

section Cipher

variable {host : Host} {key : List UInt8} {state : List UInt8} {ctx : BcryptCtx}

/-- The accesses of the loop that mixes the key are inside. -/
theorem exists_mixKey {rounds i j k : Nat} (room : i + rounds ≤ state.length) (inside : j < key.length) :
    ∃ state', mixKey key rounds i j k state = some state' ∧ state'.length = state.length := by
  induction rounds generalizing i j k state with
  | zero => exact ⟨state, rfl, rfl⟩
  | succ rounds ih =>
      have first : i < state.length := by omega
      have place := Nat.mod_lt (k + key[j].toNat + state[i].toNat) (Nat.zero_lt_of_lt first)
      unfold mixKey
      rw [List.getElem?_eq_getElem first, List.getElem?_eq_getElem inside]
      simp only [Option.bind_eq_bind, Option.bind_some]
      rw [List.getElem?_eq_getElem place]
      obtain ⟨state', mixed, length⟩ := @ih
        ((state.set i state[(k + key[j].toNat + state[i].toNat) % state.length]).set ((k + key[j].toNat + state[i].toNat) % state.length) state[i])
        (i + 1) ((j + 1) % key.length) ((k + key[j].toNat + state[i].toNat) % state.length)
        (by rw [List.length_set, List.length_set]; omega) (Nat.mod_lt _ (Nat.zero_lt_of_lt inside))
      exact ⟨state', mixed, by rw [length, List.length_set, List.length_set]⟩

/-- The accesses of a round are inside. -/
theorem exists_bcryptStep (positive : 0 < ctx.state.length) :
    ∃ ctx' byte, bcryptStep ctx = some (ctx', byte) ∧ ctx'.state.length = ctx.state.length := by
  have inside (n : Nat) : (UInt8.ofNat (n % ctx.state.length)).toNat < ctx.state.length := by
    rw [UInt8.toNat_ofNat']
    exact Nat.lt_of_le_of_lt (Nat.mod_le _ _) (Nat.mod_lt _ positive)
  have some {list : List UInt8} {n : Nat} (below : n < list.length) : ∃ byte, list[n]? = some byte :=
    ⟨list[n], List.getElem?_eq_getElem below⟩
  unfold bcryptStep
  dsimp only
  obtain ⟨first, one⟩ := some (inside (ctx.i.toNat + 1))
  rw [one]
  simp only [Option.bind_eq_bind, Option.bind_some]
  obtain ⟨second, two⟩ := some (inside (ctx.j.toNat + first.toNat))
  rw [two]
  simp only [Option.bind_some]
  generalize swap : (ctx.state.set _ first).set _ second = state
  have length : state.length = ctx.state.length := by
    rw [← swap, List.length_set, List.length_set]
  obtain ⟨first', one'⟩ := some (Nat.lt_of_lt_of_eq (inside (ctx.i.toNat + 1)) length.symm)
  obtain ⟨second', two'⟩ := some (Nat.lt_of_lt_of_eq (inside (ctx.j.toNat + first.toNat)) length.symm)
  obtain ⟨byte, three⟩ := some (Nat.mod_lt (first'.toNat + second'.toNat)
    (Nat.lt_of_lt_of_eq positive length.symm))
  rw [one', two']
  simp only [Option.bind_some]
  rw [three]
  exact ⟨_, _, rfl, length⟩

/-- Some bytes, each combined with one of a key. -/
def xor (text key : List UInt8) : List UInt8 := List.zipWith (· ^^^ ·) text key

theorem length_xor {text key : List UInt8} (length : key.length = text.length) :
    (xor text key).length = text.length := by
  rw [xor, List.length_zipWith, length, Nat.min_self]

theorem xor_xor {text key : List UInt8} (length : key.length = text.length) :
    xor (xor text key) key = text := by
  induction text generalizing key with
  | nil => rfl
  | cons byte text ih =>
      cases key with
      | nil => cases length
      | cons other key =>
          change (byte ^^^ other ^^^ other) :: xor (xor text key) key = _
          rw [ih (Nat.succ.inj length), UInt8.xor_assoc, UInt8.xor_self, UInt8.xor_zero]

/-- The cipher combines every text with the same bytes. -/
theorem exists_bcryptProcess (len : Nat) (positive : 0 < len → 0 < ctx.state.length) :
    ∃ key : List UInt8, key.length = len ∧ ∀ (memory : List UInt8) (src dst : Nat), dst ≤ src →
      src + len ≤ memory.length →
      bcryptProcess len ctx memory src dst =
        some (memory.take dst ++ xor ((memory.drop src).take len) key ++ memory.drop (dst + len)) := by
  induction len generalizing ctx with
  | zero =>
      refine ⟨[], rfl, fun memory src dst _ _ => ?_⟩
      rw [List.take_zero, Nat.add_zero]
      change some memory = some (memory.take dst ++ [] ++ memory.drop dst)
      rw [List.append_nil, List.take_append_drop]
  | succ len ih =>
      obtain ⟨ctx', byte, step, length⟩ := exists_bcryptStep (positive (Nat.succ_pos len))
      obtain ⟨key, size, rest⟩ := @ih ctx' fun _ => length ▸ positive (Nat.succ_pos len)
      refine ⟨byte :: key, congrArg (· + 1) size, fun memory src dst order room => ?_⟩
      have source : src < memory.length := by omega
      have target : dst < memory.length := by omega
      have ahead : (memory.set dst (memory[src] ^^^ byte)).drop (src + 1) = memory.drop (src + 1) :=
        List.drop_set_of_lt (by omega)
      have behind : (memory.set dst (memory[src] ^^^ byte)).drop (dst + 1 + len) =
          memory.drop (dst + (len + 1)) := by
        rw [List.drop_set_of_lt (by omega)]
        congr 1
        omega
      have front : (memory.set dst (memory[src] ^^^ byte)).take (dst + 1) =
          memory.take dst ++ [memory[src] ^^^ byte] := by
        rw [List.take_add_one, List.take_set_of_le (Nat.le_refl _), List.getElem?_set_self target]
        rfl
      unfold bcryptProcess
      rw [step]
      simp only [Option.bind_eq_bind, Option.bind_some]
      rw [List.getElem?_eq_getElem source]
      simp only [Option.bind_some]
      rw [if_pos target, rest _ (src + 1) (dst + 1) (by omega)
        (by rw [List.length_set]; omega), ahead, behind, front, List.drop_eq_getElem_cons source,
        List.take_succ_cons, List.append_assoc (memory.take dst) [_]]
      rfl

/-- With a seed and a key, a text of a length is combined with some bytes, wherever it is. -/
def Crypts (host : Host) (seed : UInt8) (key : CStr) (longstate : Bool) (len : Nat)
    (stream : List UInt8) : Prop :=
  stream.length = len ∧ ∀ (memory : List UInt8) (src dst : Nat), dst ≤ src →
    src + len ≤ memory.length →
    bcryptBuf host seed key memory src dst len longstate =
      .ok (memory.take dst ++ xor ((memory.drop src).take len) stream ++ memory.drop (dst + len))

theorem exists_crypts (seed : UInt8) {key : CStr} {longstate : Bool} {len : Nat}
    (short : key.bytes.length ≤ bcryptMaxKeylen) (available : host.malloc (stateLen longstate len) = true) :
    ∃ stream, Crypts host seed key longstate len stream := by
  have room : 0 + stateLen longstate len ≤
      ((List.range (stateLen longstate len)).map UInt8.ofNat).length := by
    rw [List.length_map, List.length_range, Nat.zero_add]
  obtain ⟨state, mixed, length⟩ := @exists_mixKey (seed :: key.bytes)
    ((List.range (stateLen longstate len)).map UInt8.ofNat) (stateLen longstate len) 0 0 0 room
    (Nat.succ_pos _)
  rw [List.length_map, List.length_range] at length
  have init : bcryptInit (seed :: key.bytes) (stateLen longstate len) =
      some { i := 0, j := 0, state := state } := by
    rw [bcryptInit, mixed]
    rfl
  have positive : 0 < len → 0 < state.length := by
    intro some
    rw [length, stateLen]
    split
    · exact some
    · decide
  obtain ⟨stream, size, process⟩ := @exists_bcryptProcess { i := 0, j := 0, state := state } len positive
  refine ⟨stream, size, fun memory src dst order inside => ?_⟩
  unfold bcryptBuf
  rw [if_neg (Nat.not_lt_of_le short), available, if_neg (by decide), init]
  change access (bcryptProcess len { i := 0, j := 0, state := state } memory src dst) = _
  rw [process memory src dst order inside]
  rfl

end Cipher

section Encrypt

@[simp] theorem access_some {α : Type} (value : α) : access (some value) = .ok value := rfl

@[simp] theorem ok_bind {α β : Type} (value : α) (next : α → Except Stop β) :
    (Except.ok value >>= next) = next value := rfl

variable {host : Host} {ep : EncParam} {seed : UInt8} {name stream front blank back content : List UInt8}
  {p : Nat}

theorem store_blank (place : p = front.length) (room : content.length ≤ blank.length) :
    store (front ++ blank ++ back) p content =
      some ((front ++ content) ++ blank.drop content.length ++ back) := by
  have stored : store blank 0 content = some (content ++ blank.drop content.length) := by
    apply store_eq_some_iff.mpr
    rw [Nat.zero_add, List.take_zero, List.nil_append]
    exact ⟨room, rfl⟩
  have whole := store_middle front back stored
  rw [Nat.add_zero, ← place] at whole
  rw [whole]
  simp only [List.append_assoc]

/-- A text in the middle of a buffer is encrypted in place. -/
theorem Crypts.middle {key : CStr} {longstate : Bool}
    (crypts : Crypts host seed key longstate content.length stream) (place : p = front.length) :
    bcryptBuf host seed key (front ++ content ++ back) p p content.length longstate =
      .ok (front ++ xor content stream ++ back) := by
  have inside : p + content.length ≤ (front ++ content ++ back).length := by
    rw [List.length_append, List.length_append, place]
    exact Nat.le_add_right _ _
  have ends : p + content.length = (front ++ content).length := by
    rw [List.length_append, place]
  rw [crypts.2 _ p p (Nat.le_refl p) inside, ends, List.drop_left, place, List.append_assoc front,
    List.take_left, List.drop_left, List.take_left]

/-- A name is put in front of what follows. -/
theorem putCrypted_eq (crypts : Crypts host seed ep.key ep.longstate name.length stream)
    (some : 0 < name.length) (room : 4 + name.length ≤ blank.length) (place : p = front.length) :
    ∃ s, (xor name stream)[0]? = Option.some s ∧
      putCrypted host ep seed name (front ++ blank ++ back) p =
        .ok ((front ++ (bytes 4 name.length ++ xor name stream)) ++ blank.drop (4 + name.length) ++ back,
          s, p + 4 + name.length) := by
  have length := length_xor crypts.1
  have first : 0 < (xor name stream).length := by omega
  refine ⟨(xor name stream)[0], List.getElem?_eq_getElem first, ?_⟩
  have front' : p + 4 = (front ++ bytes 4 name.length).length := by
    rw [List.length_append, length_bytes, place]
  have number := @store_blank front blank back (bytes 4 name.length) p place
    (by rw [length_bytes]; omega)
  have text := @store_blank (front ++ bytes 4 name.length) (blank.drop 4) back name (p + 4) front'
    (by rw [List.length_drop]; omega)
  have crypted := @Crypts.middle host seed stream (front ++ bytes 4 name.length)
    ((blank.drop 4).drop name.length ++ back) name (p + 4) _ _ crypts front'
  rw [length_bytes] at number
  simp only [← List.append_assoc] at crypted
  unfold putCrypted putBe32
  rw [number]
  change (do
    let memory ← access (store (front ++ bytes 4 name.length ++ blank.drop 4 ++ back) (p + 4) name)
    let memory ← bcryptBuf host seed ep.key memory (p + 4) (p + 4) name.length ep.longstate
    let s ← access memory[p + 4]?
    return (memory, s, p + 4 + name.length)) = _
  rw [text]
  change (do
    let memory ← bcryptBuf host seed ep.key (front ++ bytes 4 name.length ++ name ++
      (blank.drop 4).drop name.length ++ back) (p + 4) (p + 4) name.length ep.longstate
    let s ← access memory[p + 4]?
    return (memory, s, p + 4 + name.length)) = _
  rw [crypted]
  have found : (front ++ bytes 4 name.length ++ xor name stream ++
      (blank.drop 4).drop name.length ++ back)[p + 4]? = Option.some (xor name stream)[0] := by
    rw [List.append_assoc (front ++ bytes 4 name.length),
      List.append_assoc (front ++ bytes 4 name.length),
      List.getElem?_append_right (Nat.le_of_eq front'.symm), front', Nat.sub_self, List.append_assoc,
      List.getElem?_append_left first, List.getElem?_eq_getElem first]
  change (do
    let s ← access (front ++ bytes 4 name.length ++ xor name stream ++
      (blank.drop 4).drop name.length ++ back)[p + 4]?
    return (front ++ bytes 4 name.length ++ xor name stream ++
      (blank.drop 4).drop name.length ++ back, s, p + 4 + name.length)) = _
  rw [found, List.drop_drop, List.append_assoc front (bytes 4 name.length)]
  rfl

/-- The header of an image. -/
def header (magic : List UInt8) (seed : UInt8) (product version : List UInt8) (datalen : Nat) :
    List UInt8 :=
  magic ++ [seed] ++ (bytes 4 product.length ++ product) ++ (bytes 4 version.length ++ version) ++
    bytes 4 datalen

/-- The keys that an image is encrypted with: each name gives the seed of what follows it. -/
structure Streams (host : Host) (key : CStr) (longstate : Bool) (seed : UInt8)
    (product version data : List UInt8) where
  first : List UInt8
  second : List UInt8
  third : List UInt8
  next : UInt8
  last : UInt8
  cryptsProduct : Crypts host seed key longstate product.length first
  cryptsNext : (xor product first)[0]? = some next
  cryptsVersion : Crypts host next key longstate version.length second
  cryptsLast : (xor version second)[0]? = some last
  cryptsData : Crypts host last key longstate data.length third

theorem length_header (magic : List UInt8) (seed : UInt8) (product version : List UInt8)
    (datalen : Nat) :
    (header magic seed product version datalen).length =
      magic.length + 1 + (4 + product.length) + (4 + version.length) + 4 := by
  simp only [header, List.length_append, length_bytes, List.length_singleton]

theorem terminated_pos (array : List UInt8) : 0 < (terminated array).length := by
  rw [terminated, List.length_append]
  exact Nat.succ_pos _

/-- An image in its buffer. -/
theorem encryptBuf_eq {magic product version data tail : List UInt8} {hdrlen : Nat}
    (streams : Streams host ep.key ep.longstate ep.seed product version data)
    (magicText : terminated ep.magic = magic) (productText : terminated ep.product = product)
    (versionText : terminated ep.version = version)
    (size : ep.datalen = data.length) (room : blank.length = hdrlen)
    (fits : hdrlen = magic.length + 1 + (4 + product.length) + (4 + version.length) + 4)
    (tailRoom : 4 ≤ tail.length) :
    encryptBuf host ep (blank ++ data ++ tail) 0 hdrlen =
      .ok (header magic ep.seed (xor product streams.first) (xor version streams.second)
        data.length ++ xor data streams.third ++ bytes 4 ep.csum.toNat ++ tail.drop 4) := by
  subst magicText productText versionText
  have positive := terminated_pos ep.product
  have positive' := terminated_pos ep.version
  have lengthProduct := length_xor streams.cryptsProduct.1
  have lengthVersion := length_xor streams.cryptsVersion.1
  have lengthData := length_xor streams.cryptsData.1
  have one := @store_blank [] blank (data ++ tail) (terminated ep.magic) 0 rfl (by omega)
  have two := @store_blank (terminated ep.magic) (blank.drop (terminated ep.magic).length)
    (data ++ tail) [ep.seed] (terminated ep.magic).length rfl
    (by rw [List.length_drop, List.length_singleton]; omega)
  obtain ⟨s, head, three⟩ := @putCrypted_eq host ep ep.seed (terminated ep.product) streams.first
    (terminated ep.magic ++ [ep.seed]) (blank.drop ((terminated ep.magic).length + 1)) (data ++ tail)
    ((terminated ep.magic).length + 1) streams.cryptsProduct positive
    (by rw [List.length_drop]; omega) (by rw [List.length_append]; rfl)
  obtain rfl := Option.some.inj (streams.cryptsNext.symm.trans head)
  obtain ⟨s, head, four⟩ := @putCrypted_eq host ep streams.next (terminated ep.version) streams.second
    (terminated ep.magic ++ [ep.seed] ++
      (bytes 4 (terminated ep.product).length ++ xor (terminated ep.product) streams.first))
    (blank.drop ((terminated ep.magic).length + 1 + (4 + (terminated ep.product).length)))
    (data ++ tail) ((terminated ep.magic).length + 1 + 4 + (terminated ep.product).length)
    streams.cryptsVersion positive' (by rw [List.length_drop]; omega)
    (by simp only [List.length_append, length_bytes, List.length_singleton]; omega)
  obtain rfl := Option.some.inj (streams.cryptsLast.symm.trans head)
  have five := @store_blank
    (terminated ep.magic ++ [ep.seed] ++
      (bytes 4 (terminated ep.product).length ++ xor (terminated ep.product) streams.first) ++
      (bytes 4 (terminated ep.version).length ++ xor (terminated ep.version) streams.second))
    (blank.drop ((terminated ep.magic).length + 1 + (4 + (terminated ep.product).length) +
      (4 + (terminated ep.version).length))) (data ++ tail) (bytes 4 ep.datalen)
    ((terminated ep.magic).length + 1 + 4 + (terminated ep.product).length + 4 +
      (terminated ep.version).length)
    (by simp only [List.length_append, length_bytes, List.length_singleton]; omega)
    (by rw [List.length_drop, length_bytes]; omega)
  have whole : (terminated ep.magic ++ [ep.seed] ++
      (bytes 4 (terminated ep.product).length ++ xor (terminated ep.product) streams.first) ++
      (bytes 4 (terminated ep.version).length ++ xor (terminated ep.version) streams.second)) ++
      bytes 4 ep.datalen ++
      (blank.drop ((terminated ep.magic).length + 1 + (4 + (terminated ep.product).length) +
        (4 + (terminated ep.version).length))).drop (bytes 4 ep.datalen).length ++ (data ++ tail) =
      header (terminated ep.magic) ep.seed (xor (terminated ep.product) streams.first)
        (xor (terminated ep.version) streams.second) data.length ++ data ++ tail := by
    rw [List.drop_drop, length_bytes, List.drop_of_length_le (by omega), List.append_nil, header,
      lengthProduct, lengthVersion, size, List.append_assoc _ data]
  rw [whole, size] at five
  have place : hdrlen = (header (terminated ep.magic) ep.seed
      (xor (terminated ep.product) streams.first) (xor (terminated ep.version) streams.second)
      data.length).length := by
    rw [length_header, lengthProduct, lengthVersion, fits]
  have six := @Crypts.middle host streams.last streams.third _ tail data hdrlen _ _
    streams.cryptsData place
  have seven := @store_blank (header (terminated ep.magic) ep.seed
      (xor (terminated ep.product) streams.first) (xor (terminated ep.version) streams.second)
      data.length ++ xor data streams.third) tail [] (bytes 4 ep.csum.toNat) (hdrlen + data.length)
    (by rw [List.length_append, ← place, lengthData]) (by rw [length_bytes]; exact tailRoom)
  rw [List.append_nil, List.append_nil, length_bytes] at seven
  rw [List.nil_append, List.nil_append] at one
  rw [List.length_singleton, List.drop_drop] at two
  rw [List.drop_drop] at three four
  unfold encryptBuf putBe32
  simp only [List.append_assoc blank, Nat.zero_add, one, two, three, four, five, six, seven, size,
    access_some, ok_bind]

end Encrypt

section Decrypt

variable {host : Host} {ep : EncParam} {seed : UInt8} {name front back content : List UInt8} {p : Nat}

theorem field_eq {len : Nat} (place : p = front.length) (size : len = content.length) :
    field (front ++ content ++ back) p len = .ok content := by
  unfold field
  rw [if_neg, place, size, List.append_assoc, List.drop_left, List.take_left]
  rw [List.length_append, List.length_append]
  omega

theorem nameField_eq {most : Nat} (place : p = front.length) (short : name.length ≤ most)
    (small : most < 2 ^ 32) :
    nameField (front ++ (bytes 4 name.length ++ name) ++ back) p most =
      .ok (name, p + 4 + name.length) := by
  have length : number (bytes 4 name.length) = name.length := by
    rw [number_bytes]
    exact Nat.mod_eq_of_lt (Nat.lt_of_le_of_lt short small)
  have one := @field_eq front (name ++ back) (bytes 4 name.length) p 4 place
    (length_bytes _ _).symm
  have two := @field_eq (front ++ bytes 4 name.length) back name (p + 4) name.length
    (by rw [List.length_append, length_bytes, place]) rfl
  simp only [List.append_assoc] at one two
  unfold nameField
  simp only [List.append_assoc, one, ok_bind, length]
  rw [if_neg (Nat.not_lt_of_le short), two]
  rfl

theorem store_front {array : List UInt8} (short : name.length ≤ array.length) :
    store array 0 name = some (name ++ array.drop name.length) := by
  apply store_eq_some_iff.mpr
  rw [Nat.zero_add, List.take_zero, List.nil_append]
  exact ⟨short, rfl⟩

/-- Where the data of an image starts. -/
def dataPlace (first second : List UInt8) : Nat :=
  encMagicLen + 1 + 4 + first.length + 4 + second.length + 4

/-- The fields of an image are read one after the other. -/
theorem image_fields {magic first second third sum padding memory : List UInt8}
    (magicLen : magic.length = encMagicLen) (shortProduct : first.length ≤ encProductLen)
    (shortVersion : second.length ≤ encVersionLen)
    (whole : memory = header magic seed first second third.length ++ third ++ sum ++ padding) :
    field memory 0 encMagicLen = .ok magic ∧ field memory encMagicLen 1 = .ok [seed] ∧
      nameField memory (encMagicLen + 1) encProductLen =
        .ok (first, encMagicLen + 1 + 4 + first.length) ∧
      nameField memory (encMagicLen + 1 + 4 + first.length) encVersionLen =
        .ok (second, encMagicLen + 1 + 4 + first.length + 4 + second.length) ∧
      field memory (encMagicLen + 1 + 4 + first.length + 4 + second.length) 4 =
        .ok (bytes 4 third.length) ∧
      field memory (dataPlace first second) third.length = .ok third := by
  refine ⟨?_, ?_, ?_, ?_, ?_, ?_⟩
  · rw [whole, ← magicLen]
    simp only [header, List.append_assoc]
    exact @field_eq [] _ magic 0 magic.length rfl rfl
  · rw [whole, ← magicLen]
    simp only [header, List.append_assoc]
    rw [← List.append_assoc magic]
    exact field_eq rfl rfl
  · have view : memory = (magic ++ [seed]) ++ (bytes 4 first.length ++ first) ++
        (bytes 4 second.length ++ second ++ bytes 4 third.length ++ third ++ sum ++ padding) := by
      rw [whole]
      simp only [header, List.append_assoc]
    rw [view]
    exact nameField_eq (by rw [List.length_append, magicLen]; rfl) shortProduct (by decide)
  · have view : memory = (magic ++ [seed] ++ (bytes 4 first.length ++ first)) ++
        (bytes 4 second.length ++ second) ++ (bytes 4 third.length ++ third ++ sum ++ padding) := by
      rw [whole]
      simp only [header, List.append_assoc]
    rw [view]
    refine nameField_eq ?_ shortVersion (by decide)
    simp only [List.length_append, length_bytes, List.length_singleton, magicLen]
    omega
  · have view : memory = (magic ++ [seed] ++ (bytes 4 first.length ++ first) ++
        (bytes 4 second.length ++ second)) ++ bytes 4 third.length ++ (third ++ sum ++ padding) := by
      rw [whole]
      simp only [header, List.append_assoc]
    rw [view]
    refine field_eq ?_ (length_bytes _ _).symm
    simp only [List.length_append, length_bytes, List.length_singleton, magicLen]
    omega
  · rw [whole, List.append_assoc _ _ padding]
    refine field_eq ?_ rfl
    rw [length_header, magicLen, dataPlace]
    omega

/-- The data is decrypted to the front of the buffer, and what follows it stays. -/
theorem decrypt_data {last : UInt8} {key : CStr} {longstate : Bool}
    {third stream sum padding memory : List UInt8}
    (crypts : Crypts host last key longstate third.length stream)
    (whole : memory = front ++ third ++ sum ++ padding) (sumLen : sum.length = 4) :
    bcryptBuf host last key memory front.length 0 third.length longstate =
        .ok (xor third stream ++ memory.drop third.length) ∧
      field (xor third stream ++ memory.drop third.length) (front.length + third.length) 4 =
        .ok sum := by
  have length := length_xor crypts.1
  constructor
  · have view : memory = front ++ (third ++ (sum ++ padding)) := by
      rw [whole]
      simp only [List.append_assoc]
    rw [crypts.2 memory front.length 0 (Nat.zero_le _), List.take_zero, List.nil_append, Nat.zero_add]
    · congr 3
      rw [view, List.drop_left, List.take_left]
    · rw [view, List.length_append, List.length_append]
      omega
  · have view : xor third stream ++ memory.drop third.length =
        (xor third stream ++ (front ++ third).drop third.length) ++ sum ++ padding := by
      rw [whole, List.append_assoc _ sum, List.drop_append_of_le_length, List.append_assoc,
        List.append_assoc]
      rw [List.length_append]
      exact Nat.le_add_left _ _
    rw [view]
    refine field_eq ?_ sumLen.symm
    rw [List.length_append, length, List.length_drop, List.length_append]
    omega

/-- What is in an encrypted image: the names and the data are encrypted with the keys that they are
decrypted with. -/
structure Sealed (host : Host) (key : CStr) (longstate : Bool) (seed : UInt8)
    (product version data first second third : List UInt8) where
  keyFirst : List UInt8
  keySecond : List UInt8
  keyThird : List UInt8
  next : UInt8
  last : UInt8
  cryptsFirst : Crypts host seed key longstate first.length keyFirst
  cryptsSecond : Crypts host next key longstate second.length keySecond
  cryptsThird : Crypts host last key longstate third.length keyThird
  headFirst : first[0]? = some next
  headSecond : second[0]? = some last
  product : xor first keyFirst = product
  version : xor second keySecond = version
  data : xor third keyThird = data

/-- An image is decrypted. -/
theorem decryptBuf_eq {magic product version data first second third : List UInt8} {csum : UInt32}
    (image : Sealed host ep.key ep.longstate seed product version data first second third)
    (known : checkMagic magic = true) (magicLen : magic.length = encMagicLen)
    (productRoom : ep.product.length = encProductLen) (shortProduct : first.length ≤ encProductLen)
    (versionRoom : ep.version.length = encVersionLen) (shortVersion : second.length ≤ encVersionLen)
    (small : third.length < 2 ^ 32)
    (summed : buffaloCsum host (UInt32.ofNat third.length) data = csum) (padding : List UInt8) :
    ∃ rest, decryptBuf host ep (header magic seed first second third.length ++ third ++
        bytes 4 csum.toNat ++ padding) =
      .ok ({ ep with
        magic := magic
        seed := seed
        product := product ++ ep.product.drop first.length
        version := version ++ ep.version.drop second.length
        datalen := third.length
        csum := csum }, data ++ rest) := by
  have datalen : number (bytes 4 third.length) = third.length := by
    rw [number_bytes]
    exact Nat.mod_eq_of_lt small
  have sum : UInt32.ofNat (number (bytes 4 csum.toNat)) = csum := by
    rw [number_bytes, Nat.mod_eq_of_lt csum.toNat_lt, UInt32.ofNat_toNat]
  have lengthData : data.length = third.length := by
    rw [← image.data, length_xor image.cryptsThird.1]
  generalize whole : header magic seed first second third.length ++ third ++ bytes 4 csum.toNat ++
    padding = memory
  obtain ⟨one, two, three, four, five, six⟩ :=
    image_fields magicLen shortProduct shortVersion whole.symm
  have place : dataPlace first second = (header magic seed first second third.length).length := by
    rw [length_header, magicLen, dataPlace]
    omega
  obtain ⟨seven, eight⟩ := decrypt_data image.cryptsThird whole.symm (length_bytes _ _)
  rw [← place] at seven eight
  rw [image.data] at seven eight
  have productStored := @store_front first ep.product (by rw [productRoom]; exact shortProduct)
  have versionStored := @store_front second ep.version (by rw [versionRoom]; exact shortVersion)
  have headProduct : (first ++ ep.product.drop first.length)[0]? = some image.next := by
    rw [List.getElem?_append_left, image.headFirst]
    exact (List.getElem?_eq_some_iff.mp image.headFirst).1
  have headVersion : (second ++ ep.version.drop second.length)[0]? = some image.last := by
    rw [List.getElem?_append_left, image.headSecond]
    exact (List.getElem?_eq_some_iff.mp image.headSecond).1
  have nine := @Crypts.middle host _ _ [] (ep.version.drop second.length) second 0 _ _
    image.cryptsSecond rfl
  have ten := @Crypts.middle host _ _ [] (ep.product.drop first.length) first 0 _ _
    image.cryptsFirst rfl
  rw [List.nil_append, List.nil_append, image.version] at nine
  rw [List.nil_append, List.nil_append, image.product] at ten
  have taken : (data ++ memory.drop third.length).take third.length = data := by
    rw [← lengthData, List.take_left]
  unfold dataPlace at six seven eight
  refine ⟨memory.drop third.length, ?_⟩
  unfold decryptBuf
  simp only [one, ok_bind, known, Bool.true_eq_false, ↓reduceIte, two, List.getElem?_cons_zero,
    access_some, three, productStored, four, versionStored, five, datalen, six, headVersion, seven,
    eight, sum, taken, summed, ne_eq, not_true_eq_false, headProduct, nine, ten]
  rfl

end Decrypt

section RoundTrip

variable {host : Host} {key magic product version : CStr} {seed : UInt8} {longstate : Bool}
  {data garbage image : List UInt8}

theorem ok_of_bind {α β : Type} {first : Except Stop α} {next : α → Except Stop β} {result : β}
    (ended : (first >>= next) = .ok result) : ∃ value, first = .ok value ∧ next value = .ok result := by
  cases first with
  | error stop => cases ended
  | ok value => exact ⟨value, rfl, ended⟩

/-- What is encrypted had memory for its state. -/
theorem bcryptBuf_available {memory memory' : List UInt8} {src dst len : Nat}
    (ended : bcryptBuf host seed key memory src dst len longstate = .ok memory') :
    host.malloc (stateLen longstate len) = true := by
  unfold bcryptBuf at ended
  split at ended
  · cases ended
  · split at ended
    · cases ended
    · rename_i some
      exact Bool.not_eq_false _ ▸ some

theorem putCrypted_available {ep : EncParam} {name memory : List UInt8} {p : Nat}
    {result : List UInt8 × UInt8 × Nat} (ended : putCrypted host ep seed name memory p = .ok result) :
    host.malloc (stateLen ep.longstate name.length) = true := by
  unfold putCrypted at ended
  obtain ⟨memory₁, -, ended⟩ := ok_of_bind ended
  obtain ⟨memory₂, -, ended⟩ := ok_of_bind ended
  obtain ⟨memory₃, crypted, -⟩ := ok_of_bind ended
  exact bcryptBuf_available crypted

theorem encryptBuf_available {ep : EncParam} {memory memory' : List UInt8} {hdr place : Nat}
    (ended : encryptBuf host ep memory hdr place = .ok memory') :
    host.malloc (stateLen ep.longstate (terminated ep.product).length) = true ∧
      host.malloc (stateLen ep.longstate (terminated ep.version).length) = true ∧
      host.malloc (stateLen ep.longstate ep.datalen) = true := by
  unfold encryptBuf at ended
  obtain ⟨memory₁, -, ended⟩ := ok_of_bind ended
  obtain ⟨memory₂, -, ended⟩ := ok_of_bind ended
  obtain ⟨⟨memory₃, s, p⟩, product, ended⟩ := ok_of_bind ended
  obtain ⟨⟨memory₄, s', p'⟩, version, ended⟩ := ok_of_bind ended
  obtain ⟨memory₅, -, ended⟩ := ok_of_bind ended
  obtain ⟨memory₆, data, -⟩ := ok_of_bind ended
  exact ⟨putCrypted_available product, putCrypted_available version, bcryptBuf_available data⟩

theorem ofBuffer_terminated (string : CStr) (rest : List UInt8) :
    CStr.ofBuffer (string.bytes ++ [0] ++ rest) = string := by
  apply CStr.bytes_injective
  change (string.bytes ++ [0] ++ rest).takeWhile _ = _
  rw [List.append_assoc, List.takeWhile_append_of_pos]
  · simp
  · intro byte member
    rw [decide_eq_true_eq]
    rintro rfl
    exact string.noNul member

theorem strcpy_eq {size : Nat} {string : CStr} (short : string.bytes.length < size) :
    ∃ rest, strcpy size string = some (string.bytes ++ [0] ++ rest) ∧
      terminated (string.bytes ++ [0] ++ rest) = string.bytes ++ [0] := by
  have length : (string.bytes ++ [0]).length = string.bytes.length + 1 := List.length_append
  refine ⟨(List.replicate size 0).drop (string.bytes ++ [0]).length, ?_, ?_⟩
  · apply store_front
    rw [length, List.length_replicate]
    exact short
  · rw [terminated, ofBuffer_terminated]

theorem exists_head {text key : List UInt8} (length : key.length = text.length) (some : 0 < text.length) :
    ∃ byte, (xor text key)[0]? = Option.some byte := by
  have first : 0 < (xor text key).length := by
    rw [length_xor length]
    exact some
  exact ⟨_, List.getElem?_eq_getElem first⟩

/-- Where there is memory for the states, there are keys for an image. -/
theorem exists_streams {product version data : List UInt8} (seed : UInt8)
    (short : key.bytes.length ≤ bcryptMaxKeylen)
    (one : host.malloc (stateLen longstate product.length) = true) (some : 0 < product.length)
    (two : host.malloc (stateLen longstate version.length) = true) (some' : 0 < version.length)
    (three : host.malloc (stateLen longstate data.length) = true) :
    Nonempty (Streams host key longstate seed product version data) := by
  obtain ⟨first, cryptsFirst⟩ := exists_crypts seed short one
  obtain ⟨next, headFirst⟩ := exists_head cryptsFirst.1 some
  obtain ⟨second, cryptsSecond⟩ := exists_crypts next short two
  obtain ⟨last, headSecond⟩ := exists_head cryptsSecond.1 some'
  obtain ⟨third, cryptsThird⟩ := exists_crypts last short three
  exact ⟨⟨first, second, third, next, last, cryptsFirst, headFirst, cryptsSecond, headSecond,
    cryptsThird⟩⟩

/-- The keys that an image is encrypted with decrypt it. -/
def Streams.sealed {product version data : List UInt8}
    (streams : Streams host key longstate seed product version data) :
    Sealed host key longstate seed product version data (xor product streams.first)
      (xor version streams.second) (xor data streams.third) where
  keyFirst := streams.first
  keySecond := streams.second
  keyThird := streams.third
  next := streams.next
  last := streams.last
  cryptsFirst := by
    rw [length_xor streams.cryptsProduct.1]
    exact streams.cryptsProduct
  cryptsSecond := by
    rw [length_xor streams.cryptsVersion.1]
    exact streams.cryptsVersion
  cryptsThird := by
    rw [length_xor streams.cryptsData.1]
    exact streams.cryptsData
  headFirst := streams.cryptsNext
  headSecond := streams.cryptsLast
  product := xor_xor streams.cryptsProduct.1
  version := xor_xor streams.cryptsVersion.1
  data := xor_xor streams.cryptsData.1

/-- An image that is encrypted is a header, the encrypted data, the checksum of the data and some
padding. -/
theorem encryptData_eq (short : key.bytes.length ≤ bcryptMaxKeylen)
    (magicLen : magic.bytes.length < encMagicLen) (productLen : product.bytes.length < encProductLen)
    (versionLen : version.bytes.length < encVersionLen) (small : data.length < 2 ^ 32)
    (hdrlen : (magic.bytes ++ [0]).length = encMagicLen)
    (room : garbage.length = encComputeBufLen product version data.length)
    (encrypted : encryptData host key magic product version seed longstate data garbage = .ok image) :
    ∃ (streams : Streams host key longstate seed (product.bytes ++ [0]) (version.bytes ++ [0]) data)
      (tail : List UInt8),
      image = header (magic.bytes ++ [0]) seed (xor (product.bytes ++ [0]) streams.first)
        (xor (version.bytes ++ [0]) streams.second) data.length ++ xor data streams.third ++
        bytes 4 (buffaloCsum host (UInt32.ofNat data.length) data).toNat ++ tail := by
  obtain ⟨restMagic, copyMagic, magicText⟩ := strcpy_eq magicLen
  obtain ⟨restProduct, copyProduct, productText⟩ := strcpy_eq productLen
  obtain ⟨restVersion, copyVersion, versionText⟩ := strcpy_eq versionLen
  have lengthProduct : (product.bytes ++ [0]).length = product.bytes.length + 1 := List.length_append
  have lengthVersion : (version.bytes ++ [0]).length = version.bytes.length + 1 := List.length_append
  have enough : encComputeHeaderLen product version + data.length + 4 ≤ garbage.length := by
    rw [room]
    exact Nat.le_add_right _ _
  have split : store garbage (encComputeHeaderLen product version) data =
      some (garbage.take (encComputeHeaderLen product version) ++ data ++
        garbage.drop (encComputeHeaderLen product version + data.length)) :=
    store_eq_some_iff.mpr ⟨by omega, rfl⟩
  unfold encryptData at encrypted
  simp only [split, copyMagic, copyProduct, copyVersion, access_some, ok_bind,
    Nat.mod_eq_of_lt small] at encrypted
  obtain ⟨one, two, three⟩ := encryptBuf_available encrypted
  dsimp only at one two three
  rw [productText] at one
  rw [versionText] at two
  obtain ⟨streams⟩ := @exists_streams host key longstate _ _ data seed short one
    (by rw [lengthProduct]; exact Nat.succ_pos _) two (by rw [lengthVersion]; exact Nat.succ_pos _)
    three
  refine ⟨streams, (garbage.drop (encComputeHeaderLen product version + data.length)).drop 4, ?_⟩
  rw [encryptBuf_eq streams magicText productText versionText rfl] at encrypted
  · exact (Except.ok.inj encrypted).symm
  · rw [List.length_take]
    omega
  · rw [hdrlen, lengthProduct, lengthVersion, encComputeHeaderLen]
    omega
  · rw [List.length_drop]
    omega

/-- Decryption undoes encryption: from an image with any padding it recovers what went into it. -/
theorem decrypt_encrypt (host : Host) (key magic product version : CStr) (seed : UInt8)
    (longstate : Bool) (data garbage image padding : List UInt8) (ep : EncParam)
    (short : key.bytes.length ≤ bcryptMaxKeylen)
    (known : checkMagic (magic.bytes ++ [0]) = true)
    (productLen : product.bytes.length < encProductLen)
    (versionLen : version.bytes.length < encVersionLen) (small : data.length < 2 ^ 32)
    (room : garbage.length = encComputeBufLen product version data.length)
    (encrypted : encryptData host key magic product version seed longstate data garbage = .ok image)
    (sameKey : ep.key = key) (sameMode : ep.longstate = longstate)
    (productRoom : ep.product.length = encProductLen)
    (versionRoom : ep.version.length = encVersionLen) :
    ∃ ep' memory,
      decryptBuf host ep
        (image.take (encComputeHeaderLen product version + data.length + 4) ++ padding) =
          .ok (ep', memory) ∧
        ep'.seed = seed ∧ CStr.ofBuffer ep'.product = product ∧ CStr.ofBuffer ep'.version = version ∧
        ep'.datalen = data.length ∧ memory.take data.length = data := by
  subst sameKey sameMode
  have hdrlen : (magic.bytes ++ [0]).length = encMagicLen := by
    unfold checkMagic at known
    rw [Bool.or_eq_true, decide_eq_true_eq, decide_eq_true_eq] at known
    rcases known with start | asar <;> simp [encMagicLen, *]
  have magicLen : magic.bytes.length < encMagicLen := by
    rw [← hdrlen, List.length_append]
    exact Nat.lt_succ_self _
  obtain ⟨streams, tail, rfl⟩ :=
    encryptData_eq short magicLen productLen versionLen small hdrlen room encrypted
  have lengthProduct := length_xor streams.cryptsProduct.1
  have lengthVersion := length_xor streams.cryptsVersion.1
  have lengthData := length_xor streams.cryptsData.1
  have textProduct : (product.bytes ++ [0]).length = product.bytes.length + 1 := List.length_append
  have textVersion : (version.bytes ++ [0]).length = version.bytes.length + 1 := List.length_append
  have front : encComputeHeaderLen product version + data.length + 4 =
      (header (magic.bytes ++ [0]) seed (xor (product.bytes ++ [0]) streams.first)
        (xor (version.bytes ++ [0]) streams.second) data.length ++ xor data streams.third ++
        bytes 4 (buffaloCsum host (UInt32.ofNat data.length) data).toNat).length := by
    rw [List.length_append, List.length_append, length_header, length_bytes, lengthProduct,
      lengthVersion, lengthData, hdrlen, textProduct, textVersion, encComputeHeaderLen]
    omega
  obtain ⟨rest, decrypted⟩ := @decryptBuf_eq host ep seed _ _ _ _ _ _ _
    (buffaloCsum host (UInt32.ofNat data.length) data) streams.sealed known hdrlen productRoom
    (by rw [lengthProduct, textProduct]; exact productLen) versionRoom
    (by rw [lengthVersion, textVersion]; exact versionLen) (by rw [lengthData]; exact small)
    (by rw [lengthData]) padding
  rw [lengthData] at decrypted
  rw [front, List.take_left]
  refine ⟨_, _, decrypted, rfl, ofBuffer_terminated _ _, ofBuffer_terminated _ _, rfl, ?_⟩
  rw [List.take_left]

/-- A string of one letter. -/
def letter (character : Char) (some : ascii character ≠ 0) : CStr where
  bytes := [ascii character]
  noNul := by
    intro member
    exact some (List.mem_singleton.mp member).symm

/-- Three bytes with long states, on a platform where `char` is signed. -/
theorem decrypt_encrypt_sample :
    ∃ ep' memory,
      decryptBuf { malloc := fun _ => true, charSigned := true }
        { key := letter 'k' (by decide), magic := [], product := List.replicate 32 0
          version := List.replicate 8 0, seed := 0, longstate := true, datalen := 0, csum := 0 }
        ([115, 116, 97, 114, 116, 0, 79, 0, 0, 0, 2, 112, 0, 0, 0, 0, 2, 119, 0, 0, 0, 0, 3, 0, 200, 3,
          180, 172, 200, 224] ++ [7]) = .ok (ep', memory) ∧
        ep'.seed = 79 ∧ CStr.ofBuffer ep'.product = letter 'p' (by decide) ∧
        CStr.ofBuffer ep'.version = letter 'v' (by decide) ∧ ep'.datalen = 3 ∧
        memory.take 3 = [1, 200, 3] :=
  decrypt_encrypt { malloc := fun _ => true, charSigned := true } (letter 'k' (by decide))
    ⟨"start".toList.map ascii, by decide⟩ (letter 'p' (by decide)) (letter 'v' (by decide)) 79 true
    [1, 200, 3] (List.replicate 32 0)
    [115, 116, 97, 114, 116, 0, 79, 0, 0, 0, 2, 112, 0, 0, 0, 0, 2, 119, 0, 0, 0, 0, 3, 0, 200, 3, 180,
      172, 200, 224, 0, 0] [7] _ (by decide) (by decide) (by decide) (by decide) (by decide) (by decide)
    (by decide +kernel) rfl rfl rfl rfl

end RoundTrip

end Trunk.Buffalo
