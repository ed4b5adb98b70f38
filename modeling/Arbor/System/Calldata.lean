import Mathlib.Data.List.DropRight
import Arbor.Lib.Panic
import Arbor.System

/-!
# Calldata of a creation

The calldata of `createChain` is nine words followed by two byte strings, each with its
length and padded to whole words (`calldata`).  The decoder accepts only that layout, but
reads the texts up to normalisation; the encoder writes normalised texts.  So decoding and
encoding again gives back exactly the calldata whose texts are normalised
(`encode_of_decode`).  With the indexing and the additions of the source written out, the
decoder does not panic (`agrees_decodeCreateChainCall`).
-/

namespace Arbor

open Result Panic List

namespace SystemContract

variable {bytes : Bytes} {name : String} {first last : Nat}

/-! ## Words of a text -/

theorem splitWords_append {word : List Char} (hword : ∀ c ∈ word, isAsciiWhitespace c = false)
    (read rest : List Char) :
    splitWords read (word ++ rest) = splitWords (word.reverse ++ read) rest := by
  induction word generalizing read with
  | nil => rfl
  | cons c word ih =>
    have hc := hword c mem_cons_self
    rw [cons_append, splitWords, hc, if_neg Bool.false_ne_true,
      ih fun d hd => hword d (mem_cons_of_mem _ hd), reverse_cons, append_assoc]
    rfl

theorem splitWords_words {chars : List Char} :
    ∀ {read : List Char}, (∀ c ∈ read, isAsciiWhitespace c = false) →
      ∀ word ∈ splitWords read chars, word ≠ [] ∧ ∀ c ∈ word, isAsciiWhitespace c = false := by
  induction chars with
  | nil =>
    intro read hread word hmem
    rw [splitWords] at hmem
    split at hmem
    · cases hmem
    · rename_i hne
      rw [mem_singleton.mp hmem]
      exact ⟨fun h => hne (reverse_eq_nil_iff.mp h),
        fun c hc => hread c (mem_reverse.mp hc)⟩
  | cons c rest ih =>
    intro read hread word hmem
    rw [splitWords] at hmem
    split at hmem
    · split at hmem
      · exact ih (by simp) word hmem
      · rename_i hne
        rcases mem_cons.mp hmem with rfl | hmem
        · exact ⟨fun h => hne (reverse_eq_nil_iff.mp h),
            fun c hc => hread c (mem_reverse.mp hc)⟩
        · exact ih (by simp) word hmem
    · rename_i hc
      refine ih (fun d hd => ?_) word hmem
      rcases mem_cons.mp hd with rfl | hd
      · simpa using hc
      · exact hread d hd

/-- Joined words are split into the same words. -/
theorem splitWords_joinWords {words : List (List Char)}
    (hwords : ∀ word ∈ words, word ≠ [] ∧ ∀ c ∈ word, isAsciiWhitespace c = false) :
    splitWords [] (joinWords words) = words := by
  induction words with
  | nil => rfl
  | cons word rest ih =>
    obtain ⟨hne, hword⟩ := hwords word mem_cons_self
    have hrest := ih fun other hmem => hwords other (mem_cons_of_mem _ hmem)
    have hread : word.reverse ++ [] ≠ [] := by simpa using hne
    cases rest with
    | nil =>
      have hjoin : joinWords [word] = word ++ [] := by simp [joinWords]
      rw [hjoin, splitWords_append hword, splitWords, if_neg hread]
      simp
    | cons second rest =>
      have hjoin : joinWords (word :: second :: rest)
          = word ++ ' ' :: joinWords (second :: rest) := by
        simp [joinWords, intercalate]
      have hspace : isAsciiWhitespace ' ' = true := by decide
      rw [hjoin, splitWords_append hword, splitWords, if_pos hspace, if_neg hread, hrest]
      simp

/-! ## Trimmed texts -/

variable (chars : List Char)

theorem trim_eq : trim chars = (chars.dropWhile isWhitespace).rdropWhile isWhitespace := rfl

theorem trim_trim : trim (trim chars) = trim chars := by
  have hfirst : (trim chars).dropWhile isWhitespace = trim chars := by
    obtain ⟨rest, hrest⟩ : trim chars <+: chars.dropWhile isWhitespace := by
      exact rdropWhile_prefix _ _
    rcases htrim : trim chars with _ | ⟨c, tail⟩
    · rfl
    · rw [htrim] at hrest
      have hhead := head?_dropWhile_not isWhitespace chars
      rw [← hrest] at hhead
      exact dropWhile_cons_of_neg (by simpa using hhead)
  rw [trim_eq (trim chars), hfirst, trim_eq, rdropWhile_idempotent]

/-- Only small letters change. -/
theorem toAsciiUppercase_cases (c : Char) :
    toAsciiUppercase c = c ∧ ¬(0x61 ≤ c.toNat ∧ c.toNat ≤ 0x7a) ∨
      (0x61 ≤ c.toNat ∧ c.toNat ≤ 0x7a) ∧ (toAsciiUppercase c).toNat = c.toNat - 0x20 := by
  unfold toAsciiUppercase
  split
  · rename_i hsmall
    refine .inr ⟨hsmall, ?_⟩
    have hvalid : (c.toNat - 0x20).isValidChar := .inl (by omega)
    rw [Char.ofNat, dif_pos hvalid]
    rfl
  · rename_i hother
    exact .inl ⟨rfl, hother⟩

theorem toAsciiUppercase_idem (c : Char) :
    toAsciiUppercase (toAsciiUppercase c) = toAsciiUppercase c := by
  rcases toAsciiUppercase_cases c with ⟨hsame, _⟩ | ⟨hsmall, hlarge⟩
  · rw [hsame, hsame]
  · have hkeep : ∀ d : Char, ¬(0x61 ≤ d.toNat ∧ d.toNat ≤ 0x7a) → toAsciiUppercase d = d :=
      fun d hd => if_neg hd
    exact hkeep _ (by omega)

theorem isWhitespace_toAsciiUppercase (c : Char) :
    isWhitespace (toAsciiUppercase c) = isWhitespace c := by
  rcases toAsciiUppercase_cases c with ⟨hsame, _⟩ | ⟨hsmall, hlarge⟩
  · rw [hsame]
  · have hnot : ∀ d : Char, 0x41 ≤ d.toNat → d.toNat ≤ 0x7a → isWhitespace d = false := by
      intro d hle hge
      rw [isWhitespace, decide_eq_false_iff_not]
      omega
    rw [hnot c (by omega) (by omega), hnot _ (by omega) (by omega)]

theorem trim_map_toAsciiUppercase :
    trim (chars.map toAsciiUppercase) = (trim chars).map toAsciiUppercase := by
  have hsame : isWhitespace ∘ toAsciiUppercase = isWhitespace :=
      funext isWhitespace_toAsciiUppercase
  rw [trim, trim, dropWhile_map, ← map_reverse, dropWhile_map, hsame, map_reverse]

/-! ## Normalised texts -/

section

variable (h : normalizeName bytes = .ok name)
include h

theorem normalizeName_eq_ok :
    ∃ words, (∀ word ∈ words, word ≠ [] ∧ ∀ c ∈ word, isAsciiWhitespace c = false) ∧
      name = String.ofList (joinWords words) ∧ checkText 64 isNameByte name = .ok name := by
  unfold normalizeName at h
  split at h
  · cases h
  · rename_i value hvalue
    have hname := (checkText_eq_ok h).1
    rw [← hname] at h
    exact ⟨splitWords [] value.toList, splitWords_words (by simp), hname, h⟩

/-- A normalised name stays. -/
theorem normalizeName_idem : normalizeName (utf8Bytes name) = .ok name := by
  obtain ⟨words, hwords, hname, hcheck⟩ := normalizeName_eq_ok h
  rw [normalizeName, fromUtf8_utf8Bytes]
  dsimp only
  rw [hname, String.toList_ofList, splitWords_joinWords hwords, ← hname]
  exact hcheck

theorem length_of_normalizeName : (utf8Bytes name).length ≤ 64 := by
  obtain ⟨_, _, _, hcheck⟩ := normalizeName_eq_ok h
  exact (checkText_eq_ok hcheck).2

end

/-- A normalised symbol stays. -/
theorem normalizeSymbol_idem {symbol : String} (h : normalizeSymbol bytes = .ok symbol) :
    normalizeSymbol (utf8Bytes symbol) = .ok symbol := by
  unfold normalizeSymbol at h
  split at h
  · cases h
  · rename_i value hvalue
    have hsymbol := (checkText_eq_ok h).1
    rw [← hsymbol] at h
    have hidem : toAsciiUppercase ∘ toAsciiUppercase = toAsciiUppercase :=
      funext toAsciiUppercase_idem
    rw [normalizeSymbol, fromUtf8_utf8Bytes]
    dsimp only
    rw [hsymbol, String.toList_ofList, trim_map_toAsciiUppercase, trim_trim, map_map, hidem,
      ← hsymbol]
    exact h

theorem length_of_normalizeSymbol {symbol : String} (h : normalizeSymbol bytes = .ok symbol) :
    (utf8Bytes symbol).length ≤ 16 := by
  have hstays := normalizeSymbol_idem h
  rw [normalizeSymbol, fromUtf8_utf8Bytes] at hstays
  obtain ⟨hsame, hlength⟩ := checkText_eq_ok hstays
  rw [hsame]
  exact hlength

/-! ## Slices -/

theorem slice_eq_some {part : Bytes} :
    slice bytes first last = some part ↔ ∃ before after, bytes = before ++ part ++ after ∧
      before.length = first ∧ first + part.length = last := by
  constructor
  · intro h
    unfold slice at h
    split at h
    · rename_i hrange
      cases h
      refine ⟨bytes.take first, bytes.drop last, ?_, ?_, ?_⟩
      · have htake : bytes.take first = (bytes.take last).take first := by
          rw [take_take, Nat.min_eq_left hrange.1]
        rw [htake, take_append_drop, take_append_drop]
      · rw [length_take]
        omega
      · rw [length_drop, length_take]
        omega
    · cases h
  · rintro ⟨before, after, rfl, rfl, rfl⟩
    have hrange : before.length ≤ before.length + part.length ∧
        before.length + part.length ≤ (before ++ part ++ after).length := by
      rw [length_append, length_append]
      omega
    rw [slice, if_pos hrange, take_left' (length_append), drop_left]

/-- Neighbouring slices are one slice. -/
theorem slice_append {left right : Bytes} {middle : Nat}
    (hleft : slice bytes first middle = some left) (hright : slice bytes middle last = some right) :
    slice bytes first last = some (left ++ right) := by
  obtain ⟨before, after, hbytes, hbefore, hmiddle⟩ := slice_eq_some.mp hleft
  obtain ⟨before', after', hbytes', hbefore', hlast⟩ := slice_eq_some.mp hright
  have hsame : before' = before ++ left := by
    rw [hbytes, append_assoc before'] at hbytes'
    refine (append_inj_left hbytes' ?_).symm
    rw [length_append]
    omega
  refine slice_eq_some.mpr ⟨before, after', ?_, hbefore, ?_⟩
  · rw [hbytes', hsame]
    simp only [append_assoc]
  · rw [length_append]
    omega

theorem slice_full (bytes : Bytes) : slice bytes 0 bytes.length = some bytes :=
  slice_eq_some.mpr ⟨[], [], by simp, rfl, by simp⟩

theorem length_flatten_words {words : List Bytes} (hwords : ∀ word ∈ words, word.length = 32) :
    words.flatten.length = words.length * 32 := by
  induction words with
  | nil => rfl
  | cons word rest ih =>
    rw [flatten_cons, length_append, hwords word mem_cons_self,
      ih fun other hmem => hwords other (mem_cons_of_mem _ hmem), length_cons]
    omega

/-- The slices of a sequence of words. -/
theorem slice_word {words : List Bytes} (hwords : ∀ word ∈ words, word.length = 32) (rest : Bytes)
    {i : Nat} (hi : i < words.length) :
    slice (words.flatten ++ rest) (i * 32) ((i + 1) * 32) = some words[i] := by
  have hsplit : words = words.take i ++ words[i] :: words.drop (i + 1) := by
    rw [← drop_eq_getElem_cons hi, take_append_drop]
  have hword : words[i].length = 32 := hwords _ (getElem_mem hi)
  have hbefore : (words.take i).flatten.length = i * 32 := by
    rw [length_flatten_words fun word hmem => hwords word (mem_of_mem_take hmem),
      length_take, Nat.min_eq_left hi.le]
  refine slice_eq_some.mpr
    ⟨(words.take i).flatten, (words.drop (i + 1)).flatten ++ rest, ?_, hbefore, by omega⟩
  conv_lhs => rw [hsplit]
  simp only [flatten_append, flatten_cons, append_assoc]

/-! ## Words -/

theorem length_zeros (n : Nat) : (zeros n).length = n := length_replicate

theorem length_putWord {w : Nat} (hw : w ≤ 256) (value : BitVec w) :
    (putWord value).length = 32 := by
  rw [putWord, length_append, length_zeros, length_toBytes]
  omega

/-- A word is decoded from exactly its own 32 bytes. -/
theorem decodeWord_eq_ok {w : Nat} (hw : 8 ∣ w) (hle : w ≤ 256) {word : Bytes} {value : BitVec w} :
    decodeWord w word = .ok value ↔ word = putWord value := by
  constructor
  · intro h
    unfold decodeWord at h
    split at h
    · cases h
    · rename_i hword
      rw [not_or, not_not, not_not] at hword
      cases h
      have hlength : 8 * (word.drop (32 - w / 8)).length = w := by
        rw [length_drop]
        omega
      rw [putWord, ← hword.2, toBytes_ofBytes hlength, take_append_drop]
  · rintro rfl
    have hzeros : (putWord value).take (32 - w / 8) = zeros (32 - w / 8) :=
      take_left' (length_zeros _)
    have hrest : (putWord value).drop (32 - w / 8) = toBytes value :=
      drop_left' (length_zeros _)
    rw [decodeWord, if_neg, hrest, ofBytes_toBytes hw]
    rw [not_or, not_not, not_not]
    exact ⟨length_putWord hle value, hzeros⟩

theorem decodeUsizeWord_eq_ok {word : Bytes} {n : Nat} :
    decodeUsizeWord word = .ok n ↔ n < 2 ^ 64 ∧ word = putWordUsize n := by
  constructor
  · intro h
    obtain ⟨value, hvalue, h⟩ := bind_eq_ok.mp h
    cases h
    refine ⟨value.isLt, ?_⟩
    rw [putWordUsize, BitVec.ofNat_toNat]
    exact (decodeWord_eq_ok (by decide) (by decide)).mp hvalue
  · rintro ⟨hn, rfl⟩
    refine bind_eq_ok.mpr ⟨BitVec.ofNat 64 n, ?_, ?_⟩
    · exact (decodeWord_eq_ok (by decide) (by decide)).mpr rfl
    · rw [BitVec.toNat_ofNat, Nat.mod_eq_of_lt hn]
      rfl

theorem orInvalid_eq_ok {bytes : Option Bytes} {part : Bytes} :
    orInvalid bytes = .ok part ↔ bytes = some part := by
  cases bytes <;> simp [orInvalid]

/-! ## Byte strings -/

theorem length_abiBytesTail (value : Bytes) :
    (abiBytesTail value).length = 32 + (value.length + 31) / 32 * 32 := by
  rw [abiBytesTail, length_append, length_append, putWordUsize,
    length_putWord (by decide), length_zeros]
  omega

theorem slice_split {left right : Bytes} (h : slice bytes first last = some (left ++ right)) :
    slice bytes first (first + left.length) = some left ∧
      slice bytes (first + left.length) last = some right := by
  obtain ⟨before, after, hbytes, hbefore, hlast⟩ := slice_eq_some.mp h
  rw [length_append] at hlast
  refine ⟨slice_eq_some.mpr ⟨before, right ++ after, ?_, hbefore, rfl⟩,
    slice_eq_some.mpr ⟨before ++ left, after, ?_, ?_, ?_⟩⟩
  · rw [hbytes]
    simp only [append_assoc]
  · rw [hbytes]
    simp only [append_assoc]
  · rw [length_append, hbefore]
  · omega

/-- A byte string is decoded from exactly its own tail. -/
theorem decodeDynamicBytes_eq_ok {args data : Bytes} {offset limit : Nat}
    (hlimit : limit < 2 ^ 64) : decodeDynamicBytes args offset limit = .ok (data, last) ↔
      offset % 32 = 0 ∧ data.length ≤ limit ∧
      slice args offset last = some (abiBytesTail data) := by
  constructor
  · intro h
    obtain ⟨hoffset, h⟩ := check_bind_eq_ok.mp h
    obtain ⟨lengthWord, hlengthWord, h⟩ := bind_eq_ok.mp h
    obtain ⟨length, hlength, h⟩ := bind_eq_ok.mp h
    obtain ⟨hfits, h⟩ := check_bind_eq_ok.mp h
    obtain ⟨found, hfound, h⟩ := bind_eq_ok.mp h
    obtain ⟨padding, hpadding, h⟩ := bind_eq_ok.mp h
    obtain ⟨hzero, h⟩ := check_bind_eq_ok.mp h
    cases h
    rw [rejectIf_eq_ok, not_not] at hoffset
    rw [rejectIf_eq_ok] at hfits
    rw [rejectIf_eq_ok, Bool.not_eq_true, any_eq_false] at hzero
    rw [orInvalid_eq_ok] at hlengthWord hfound hpadding
    obtain ⟨_, rfl⟩ := decodeUsizeWord_eq_ok.mp hlength
    obtain ⟨_, _, _, _, hdata⟩ := slice_eq_some.mp hfound
    obtain ⟨_, _, _, _, hend⟩ := slice_eq_some.mp hpadding
    have hpad : padding = zeros ((data.length + 31) / 32 * 32 - data.length) := by
      refine eq_replicate_iff.mpr ⟨by omega, fun byte hbyte => ?_⟩
      simpa using hzero byte hbyte
    have hsame : length = data.length := by omega
    refine ⟨hoffset, by omega, ?_⟩
    rw [abiBytesTail, ← hpad, ← hsame]
    exact slice_append (slice_append hlengthWord hfound) hpadding
  · rintro ⟨hoffset, hfits, hslice⟩
    have hend : offset + 32 + (data.length + 31) / 32 * 32 = last := by
      obtain ⟨_, _, _, _, hlast⟩ := slice_eq_some.mp hslice
      rw [length_abiBytesTail] at hlast
      omega
    obtain ⟨hleft, hpadding⟩ := slice_split hslice
    obtain ⟨hword, hdata⟩ := slice_split hleft
    rw [length_append, ← Nat.add_assoc] at hpadding hdata
    have hzero : ¬((zeros ((data.length + 31) / 32 * 32 - data.length)).any (· ≠ 0)) = true := by
      rw [Bool.not_eq_true, any_eq_false]
      intro byte hbyte
      rw [eq_of_mem_replicate hbyte]
      decide
    refine check_bind_eq_ok.mpr ⟨rejectIf_eq_ok.mpr (not_not.mpr hoffset), bind_eq_ok.mpr
      ⟨_, orInvalid_eq_ok.mpr hword, bind_eq_ok.mpr ⟨data.length,
        decodeUsizeWord_eq_ok.mpr ⟨by omega, rfl⟩, check_bind_eq_ok.mpr
          ⟨rejectIf_eq_ok.mpr (by omega), bind_eq_ok.mpr ⟨data, orInvalid_eq_ok.mpr hdata,
            bind_eq_ok.mpr ⟨_, orInvalid_eq_ok.mpr ?_, check_bind_eq_ok.mpr
              ⟨rejectIf_eq_ok.mpr hzero, ?_⟩⟩⟩⟩⟩⟩⟩
    · rw [hend]
      exact hpadding
    · rw [hend]
      rfl

/-! ## The call -/

section Calls

variable {input args word : Bytes} {request : CreateChainRequest} {first : Nat}

/-- The arguments before the texts; the second text begins at `symbolOffset`. -/
def headWords (request : CreateChainRequest) (symbolOffset : Nat) : Bytes :=
  toBytes request.parentDomainId ++ putWordUsize HEAD_BYTES ++ putWordUsize symbolOffset ++
    putWord request.evmChainId ++ putWord request.owner ++ putWord request.gasLimit ++
    putWord request.initialBaseFee ++ toBytes request.initialSupply ++
    putWord request.protocolRevision

theorem length_headWords (request : CreateChainRequest) (symbolOffset : Nat) :
    (headWords request symbolOffset).length = HEAD_BYTES := by
  simp [headWords, putWordUsize, length_putWord, HEAD_BYTES]

theorem slice_of_word {last w : Nat} {value : BitVec w} (hw : 8 ∣ w) (hle : w ≤ 256)
    (h : (orInvalid (slice args first last)).bind (decodeWord w) = .ok value) :
    slice args first last = some (putWord value) := by
  obtain ⟨word, hword, hvalue⟩ := bind_eq_ok.mp h
  rw [(decodeWord_eq_ok hw hle).mp hvalue] at hword
  exact orInvalid_eq_ok.mp hword

theorem slice_of_usize {last n : Nat}
    (h : (orInvalid (slice args first last)).bind decodeUsizeWord = .ok n) :
    slice args first last = some (putWordUsize n) := by
  obtain ⟨word, hword, hvalue⟩ := bind_eq_ok.mp h
  rw [(decodeUsizeWord_eq_ok.mp hvalue).2] at hword
  exact orInvalid_eq_ok.mp hword

theorem slice_of_bytes (h : orInvalid (slice args first (first + 32)) = .ok word) :
    slice args first (first + 32) = some (toBytes (ofBytes 256 word)) := by
  have hslice := orInvalid_eq_ok.mp h
  obtain ⟨_, _, _, _, hlength⟩ := slice_eq_some.mp hslice
  rw [toBytes_ofBytes (by omega)]
  exact hslice

theorem length_of_word {i : Nat} (h : orInvalid (slice args (i * 32) ((i + 1) * 32)) = .ok word) :
    word.length = 32 := by
  obtain ⟨_, _, _, _, hlength⟩ := slice_eq_some.mp (orInvalid_eq_ok.mp h)
  omega

theorem decodeWord_address (hword : word.length = 32) : decodeWord 160 word = (do
      rejectIf (word.take 12 ≠ zeros 12) .invalidCalldata
      return ofBytes 160 (word.drop 12)) := by
  by_cases hzero : word.take 12 = zeros 12
  · simp [decodeWord, hword, hzero]
  · simp [decodeWord, hword, hzero, rejectIf]

variable [Keccak]

/-- The calldata of a request that carries the given texts. -/
def calldata (request : CreateChainRequest) (name symbol : Bytes) : Bytes :=
  createChainSelector ++ (headWords request (HEAD_BYTES + (abiBytesTail name).length) ++
    abiBytesTail name ++ abiBytesTail symbol)

/-- The texts that calldata carries, as they stand there. -/
def carriedTexts (input : Bytes) : Option (Bytes × Bytes) :=
  match decodeDynamicBytes (input.drop 4) HEAD_BYTES 64 with
  | .error _ => none
  | .ok (name, nameEnd) =>
    match decodeDynamicBytes (input.drop 4) nameEnd 16 with
    | .error _ => none
    | .ok (symbol, _) => some (name, symbol)

theorem length_createChainSelector : createChainSelector.length = 4 := by
  rfl

structure Carries (input : Bytes) (request : CreateChainRequest) (name symbol : Bytes) : Prop where
  texts : carriedTexts input = some (name, symbol)
  normalName : normalizeName name = .ok request.name
  normalSymbol : normalizeSymbol symbol = .ok request.symbol
  valid : validateRequest request = .ok ()
  layout : input = calldata request name symbol

/-- **Accepted calldata has the one layout**, around texts that normalise to those of the
request. -/
theorem carries_of_decode (h : decodeCreateChainCall input = .ok request) :
    ∃ name symbol, Carries input request name symbol := by
  obtain ⟨hstart, h⟩ := check_bind_eq_ok.mp h
  obtain ⟨parentDomainId, hparent, h⟩ := bind_eq_ok.mp h
  obtain ⟨nameOffset, hnameOffset, h⟩ := bind_eq_ok.mp h
  obtain ⟨symbolOffset, hsymbolOffset, h⟩ := bind_eq_ok.mp h
  obtain ⟨hoffsets, h⟩ := check_bind_eq_ok.mp h
  obtain ⟨⟨nameBytes, nameEnd⟩, hname, h⟩ := bind_eq_ok.mp h
  obtain ⟨hnameEnd, h⟩ := check_bind_eq_ok.mp h
  obtain ⟨⟨symbolBytes, symbolEnd⟩, hsymbol, h⟩ := bind_eq_ok.mp h
  obtain ⟨hsymbolEnd, h⟩ := check_bind_eq_ok.mp h
  obtain ⟨evmChainId, hchainId, h⟩ := bind_eq_ok.mp h
  obtain ⟨owner, howner, h⟩ := bind_eq_ok.mp h
  obtain ⟨gasLimit, hgasLimit, h⟩ := bind_eq_ok.mp h
  obtain ⟨initialBaseFee, hbaseFee, h⟩ := bind_eq_ok.mp h
  obtain ⟨initialSupply, hsupply, h⟩ := bind_eq_ok.mp h
  obtain ⟨protocolRevision, hrevision, h⟩ := bind_eq_ok.mp h
  obtain ⟨name, hnormalName, h⟩ := bind_eq_ok.mp h
  obtain ⟨symbol, hnormalSymbol, h⟩ := bind_eq_ok.mp h
  obtain ⟨hvalid, h⟩ := check_bind_eq_ok.mp h
  cases h
  rw [rejectIf_eq_ok, not_or, not_not] at hstart
  rw [rejectIf_eq_ok, not_or, not_not] at hoffsets
  rw [rejectIf_eq_ok, not_not] at hnameEnd hsymbolEnd
  rw [hoffsets.1] at hname hnameOffset
  subst hnameEnd hsymbolEnd
  refine ⟨nameBytes, symbolBytes, ?_, hnormalName, hnormalSymbol, hvalid, ?_⟩
  · rw [carriedTexts, hname]
    dsimp only
    rw [hsymbol]
  · obtain ⟨_, _, hnameTail⟩ := (decodeDynamicBytes_eq_ok (by decide)).mp hname
    obtain ⟨_, _, hsymbolTail⟩ := (decodeDynamicBytes_eq_ok (by decide)).mp hsymbol
    have hoffset : HEAD_BYTES + (abiBytesTail nameBytes).length = symbolOffset := by
      obtain ⟨_, _, _, _, hlength⟩ := slice_eq_some.mp hnameTail
      exact hlength
    have hhead := slice_append (slice_append (slice_append (slice_append (slice_append (slice_append
      (slice_append (slice_append (slice_of_bytes hparent) (slice_of_usize hnameOffset))
        (slice_of_usize hsymbolOffset)) (slice_of_word (by decide) (by decide) hchainId))
        (slice_of_word (by decide) (by decide) howner))
        (slice_of_word (by decide) (by decide) hgasLimit))
        (slice_of_word (by decide) (by decide) hbaseFee)) (slice_of_bytes hsupply))
        (slice_of_word (by decide) (by decide) hrevision)
    have hall := slice_append (slice_append hhead hnameTail) hsymbolTail
    have hargs := Option.some.inj ((slice_full (input.drop 4)).symm.trans hall)
    rw [calldata, hoffset, ← hstart.2]
    exact (take_append_drop 4 input).symm.trans (congrArg (input.take 4 ++ ·) hargs)

/-- The texts are found where the head points. -/
theorem decodeDynamicBytes_calldata {name symbol : Bytes} (hname : name.length ≤ 64)
    (hsymbol : symbol.length ≤ 16) :
    decodeDynamicBytes ((calldata request name symbol).drop 4) HEAD_BYTES 64
        = .ok (name, HEAD_BYTES + (abiBytesTail name).length) ∧
      decodeDynamicBytes ((calldata request name symbol).drop 4)
        (HEAD_BYTES + (abiBytesTail name).length) 16
        = .ok (symbol, ((calldata request name symbol).drop 4).length) := by
  have hargs : (calldata request name symbol).drop 4
      = headWords request (HEAD_BYTES + (abiBytesTail name).length) ++ abiBytesTail name ++
        abiBytesTail symbol := by
    exact drop_left' length_createChainSelector
  have haligned : (HEAD_BYTES + (abiBytesTail name).length) % 32 = 0 := by
    rw [length_abiBytesTail, HEAD_BYTES]
    omega
  refine ⟨(decodeDynamicBytes_eq_ok (by decide)).mpr ⟨rfl, hname, slice_eq_some.mpr
      ⟨_, abiBytesTail symbol, hargs, length_headWords _ _, rfl⟩⟩,
    (decodeDynamicBytes_eq_ok (by decide)).mpr ⟨haligned, hsymbol, slice_eq_some.mpr
      ⟨_, [], hargs.trans (append_nil _).symm, ?_, ?_⟩⟩⟩
  · rw [length_append, length_headWords]
  · rw [hargs, length_append, length_append, length_headWords]

/-- Calldata carries the texts it was made with. -/
theorem carriedTexts_calldata {name symbol : Bytes} (hname : name.length ≤ 64)
    (hsymbol : symbol.length ≤ 16) :
    carriedTexts (calldata request name symbol) = some (name, symbol) := by
  obtain ⟨hfirst, hsecond⟩ := @decodeDynamicBytes_calldata request _ _ _ hname hsymbol
  rw [carriedTexts, hfirst]
  dsimp only
  rw [hsecond]

theorem decode_calldata {name symbol : Bytes} (hname : name.length ≤ 64)
    (hsymbol : symbol.length ≤ 16) (hnormalName : normalizeName name = .ok request.name)
    (hnormalSymbol : normalizeSymbol symbol = .ok request.symbol)
    (hvalid : validateRequest request = .ok ()) :
    decodeCreateChainCall (calldata request name symbol) = .ok request := by
  let symbolOffset := HEAD_BYTES + (abiBytesTail name).length
  let words := [toBytes request.parentDomainId, putWordUsize HEAD_BYTES, putWordUsize symbolOffset,
    putWord request.evmChainId, putWord request.owner, putWord request.gasLimit,
    putWord request.initialBaseFee, toBytes request.initialSupply, putWord request.protocolRevision]
  have hwords : ∀ word ∈ words, word.length = 32 := by
    simp [words, putWordUsize, length_putWord]
  have hargs : (calldata request name symbol).drop 4
      = words.flatten ++ (abiBytesTail name ++ abiBytesTail symbol) := by
    rw [calldata, drop_left' length_createChainSelector]
    simp [words, headWords, symbolOffset]
  have hword (i : Nat) (hi : i < 9) :
      orInvalid (slice ((calldata request name symbol).drop 4) (i * 32) ((i + 1) * 32))
        = .ok (words.get ⟨i, hi⟩) := by
    rw [hargs, slice_word hwords _ hi]
    rfl
  have hhead : ¬((calldata request name symbol).length < 4 + HEAD_BYTES ∨
      (calldata request name symbol).take 4 ≠ createChainSelector) := by
    rw [not_or, not_not, calldata]
    refine ⟨?_, take_left' length_createChainSelector⟩
    rw [length_append, length_append, length_append, length_createChainSelector, length_headWords]
    omega
  have hoffset : symbolOffset < 2 ^ 64 := by
    dsimp only [symbolOffset]
    rw [length_abiBytesTail, HEAD_BYTES]
    omega
  obtain ⟨hfirst, hsecond⟩ := @decodeDynamicBytes_calldata request _ _ _ hname hsymbol
  have hplain {w : Nat} {value : BitVec w} (hw : 8 ∣ w) (hle : w ≤ 256) (i : Nat) (hi : i < 9)
      (hvalue : words.get ⟨i, hi⟩ = putWord value) :
      (orInvalid (slice ((calldata request name symbol).drop 4) (i * 32) ((i + 1) * 32))).bind
        (decodeWord w) = .ok value :=
    bind_eq_ok.mpr ⟨_, hword i hi, (decodeWord_eq_ok hw hle).mpr hvalue⟩
  have hsize {n : Nat} (hn : n < 2 ^ 64) (i : Nat) (hi : i < 9)
      (hvalue : words.get ⟨i, hi⟩ = putWordUsize n) :
      (orInvalid (slice ((calldata request name symbol).drop 4) (i * 32) ((i + 1) * 32))).bind
        decodeUsizeWord = .ok n :=
    bind_eq_ok.mpr ⟨_, hword i hi, decodeUsizeWord_eq_ok.mpr ⟨hn, hvalue⟩⟩
  have hparent : ofBytes 256 (toBytes request.parentDomainId) = request.parentDomainId :=
    ofBytes_toBytes (by decide) _
  have hsupply : ofBytes 256 (toBytes request.initialSupply) = request.initialSupply :=
    ofBytes_toBytes (by decide) _
  refine check_bind_eq_ok.mpr ⟨rejectIf_eq_ok.mpr hhead,
    bind_eq_ok.mpr ⟨_, hword 0 (by decide),
    bind_eq_ok.mpr ⟨HEAD_BYTES, hsize (by decide) 1 (by decide) rfl,
    bind_eq_ok.mpr ⟨symbolOffset, hsize hoffset 2 (by decide) rfl,
    check_bind_eq_ok.mpr ⟨rejectIf_eq_ok.mpr ?_,
    bind_eq_ok.mpr ⟨_, hfirst, check_bind_eq_ok.mpr ⟨rejectIf_eq_ok.mpr (not_not.mpr rfl),
    bind_eq_ok.mpr ⟨_, hsecond, check_bind_eq_ok.mpr ⟨rejectIf_eq_ok.mpr (not_not.mpr rfl),
    bind_eq_ok.mpr ⟨_, hplain (by decide) (by decide) 3 (by decide) rfl,
    bind_eq_ok.mpr ⟨_, hplain (by decide) (by decide) 4 (by decide) rfl,
    bind_eq_ok.mpr ⟨_, hplain (by decide) (by decide) 5 (by decide) rfl,
    bind_eq_ok.mpr ⟨_, hplain (by decide) (by decide) 6 (by decide) rfl,
    bind_eq_ok.mpr ⟨_, hword 7 (by decide),
    bind_eq_ok.mpr ⟨_, hplain (by decide) (by decide) 8 (by decide) rfl,
    bind_eq_ok.mpr ⟨_, hnormalName, bind_eq_ok.mpr ⟨_, hnormalSymbol,
    check_bind_eq_ok.mpr ⟨?_, ?_⟩⟩⟩⟩⟩⟩⟩⟩⟩⟩⟩⟩⟩⟩⟩⟩⟩⟩
  · rw [not_or, not_not]
    refine ⟨rfl, ?_⟩
    dsimp only [symbolOffset]
    rw [length_abiBytesTail]
    omega
  · change validateRequest { request with
      parentDomainId := ofBytes 256 (toBytes request.parentDomainId)
      initialSupply := ofBytes 256 (toBytes request.initialSupply) } = .ok ()
    rw [hparent]
    exact hvalid
  · change Except.ok { request with
      parentDomainId := ofBytes 256 (toBytes request.parentDomainId)
      initialSupply := ofBytes 256 (toBytes request.initialSupply) } = .ok request
    rw [hparent, hsupply]

/-- **Decoding and encoding again** gives calldata with normalised texts: the calldata that
was decoded exactly if it carries those. -/
theorem encode_of_decode (h : decodeCreateChainCall input = .ok request) :
    ∃ bytes, encodeCreateChainCall request = .ok bytes ∧ (bytes = input ↔
      carriedTexts input = some (utf8Bytes request.name, utf8Bytes request.symbol)) := by
  obtain ⟨name, symbol, hcarries⟩ := carries_of_decode h
  refine ⟨calldata request (utf8Bytes request.name) (utf8Bytes request.symbol), ?_, ?_⟩
  · refine bind_eq_ok.mpr ⟨request.name, normalizeName_idem hcarries.normalName, bind_eq_ok.mpr
      ⟨request.symbol, normalizeSymbol_idem hcarries.normalSymbol, check_bind_eq_ok.mpr
        ⟨hcarries.valid, congrArg Except.ok ?_⟩⟩⟩
    simp only [calldata, headWords, append_assoc]
  · constructor
    · intro hsame
      rw [← hsame]
      exact carriedTexts_calldata (length_of_normalizeName hcarries.normalName)
        (length_of_normalizeSymbol hcarries.normalSymbol)
    · intro htexts
      rw [hcarries.texts] at htexts
      cases htexts
      exact hcarries.layout.symm

/-! ## Panics -/

/-- `decodeDynamicBytes` with the additions of the source: the checked ones fail, the plain
ones panic. -/
def decodeDynamicBytesGuarded (args : Bytes) (offset limit : Nat) :
    ExceptT ChainRegistryError Option (Bytes × Nat) := do
  step (rejectIf (offset % 32 ≠ 0) .invalidCalldata)
  panicUnless (offset + 32 < 2 ^ 64)
  let lengthWord ← step (orInvalid (slice args offset (offset + 32)))
  let length ← step (decodeUsizeWord lengthWord)
  step (rejectIf (limit < length) .invalidMetadata)
  let start := offset + 32
  step (rejectIf (2 ^ 64 ≤ length + 31) .invalidCalldata)
  let last := start + (length + 31) / 32 * 32
  step (rejectIf (2 ^ 64 ≤ last) .invalidCalldata)
  panicUnless (start + length < 2 ^ 64)
  let data ← step (orInvalid (slice args start (start + length)))
  let padding ← step (orInvalid (slice args (start + length) last))
  step (rejectIf (padding.any (· ≠ 0) = true) .invalidCalldata)
  return (data, last)

/-- `decodeCreateChainCall` with the indexing, the plain additions and the conversions to
fixed widths of the source. -/
def decodeCreateChainCallGuarded (input : Bytes) :
    ExceptT ChainRegistryError Option CreateChainRequest := do
  step (rejectIf (input.length < 4 + HEAD_BYTES) .invalidCalldata)
  -- `input[..4]`, read only if the input is long enough, and `input[4..]`
  panicUnless (4 ≤ input.length)
  step (rejectIf (input.take 4 ≠ createChainSelector) .invalidCalldata)
  let args := input.drop 4
  let word := fun index => orInvalid (slice args (index * 32) ((index + 1) * 32))
  let parentDomainId ← step (word 0)
  panicUnless (parentDomainId.length = 32)
  let nameOffset ← step ((word 1).bind decodeUsizeWord)
  let symbolOffset ← step ((word 2).bind decodeUsizeWord)
  step (rejectIf (nameOffset ≠ HEAD_BYTES) .invalidCalldata)
  panicUnless (nameOffset + 32 < 2 ^ 64)
  step (rejectIf (symbolOffset < nameOffset + 32) .invalidCalldata)
  let (nameBytes, nameEnd) ← decodeDynamicBytesGuarded args nameOffset 64
  step (rejectIf (symbolOffset ≠ nameEnd) .invalidCalldata)
  let (symbolBytes, symbolEnd) ← decodeDynamicBytesGuarded args symbolOffset 16
  step (rejectIf (symbolEnd ≠ args.length) .invalidCalldata)
  let evmChainId ← step ((word 3).bind (decodeWord 64))
  let ownerWord ← step (word 4)
  panicUnless (12 ≤ ownerWord.length)
  step (rejectIf (ownerWord.take 12 ≠ zeros 12) .invalidCalldata)
  panicUnless ((ownerWord.drop 12).length = 20)
  let gasLimit ← step ((word 5).bind (decodeWord 64))
  let initialBaseFee ← step ((word 6).bind (decodeWord 128))
  let initialSupply ← step (word 7)
  panicUnless (initialSupply.length ≤ 32)
  let protocolRevision ← step ((word 8).bind (decodeWord 32))
  let name ← step (normalizeName nameBytes)
  let symbol ← step (normalizeSymbol symbolBytes)
  let request : CreateChainRequest :=
    { parentDomainId := ofBytes 256 parentDomainId, name, symbol, evmChainId,
      owner := ofBytes 160 (ownerWord.drop 12), gasLimit, initialBaseFee,
      initialSupply := ofBytes 256 initialSupply, protocolRevision }
  step (validateRequest request)
  return request

omit [Keccak] in
theorem agrees_decodeDynamicBytes {offset limit : Nat} (hoffset : offset + limit + 64 < 2 ^ 64) :
    Agrees (decodeDynamicBytesGuarded args offset limit)
      (decodeDynamicBytes args offset limit) := by
  refine Agrees.step fun _ _ => ?_
  refine Agrees.guard (by omega) ?_
  refine Agrees.step fun lengthWord _ => ?_
  refine Agrees.step fun length _ => ?_
  refine Agrees.step fun _ hlimit => ?_
  rw [rejectIf_eq_ok] at hlimit
  refine Agrees.passed (by omega) (Agrees.passed (by omega) ?_)
  refine Agrees.guard (by omega) ?_
  refine Agrees.step fun data _ => ?_
  refine Agrees.step fun padding _ => ?_
  exact Agrees.step fun _ _ => Agrees.pure _

/-- **Decoding does not panic**, whatever the input. -/
theorem agrees_decodeCreateChainCall (input : Bytes) :
    Agrees (decodeCreateChainCallGuarded input) (decodeCreateChainCall input) := by
  refine Agrees.either fun hlong => ?_
  refine Agrees.guard (by omega) (Agrees.step fun _ _ => ?_)
  refine Agrees.step fun parentDomainId hparent => ?_
  refine Agrees.guard (length_of_word hparent) (Agrees.step fun nameOffset _ => ?_)
  refine Agrees.step fun symbolOffset _ => Agrees.either fun hname => ?_
  rw [not_not] at hname
  subst hname
  refine Agrees.guard (by decide) (Agrees.step fun _ _ => ?_)
  refine Agrees.bind (agrees_decodeDynamicBytes (by decide)) fun name hname => ?_
  refine Agrees.step fun _ hend => ?_
  -- the symbol begins where the name ends, so its offset is small too
  have hoffset : symbolOffset ≤ HEAD_BYTES + 96 := by
    obtain ⟨_, hlimit, hslice⟩ := (decodeDynamicBytes_eq_ok (by decide)).mp hname
    obtain ⟨_, _, _, _, hlast⟩ := slice_eq_some.mp hslice
    rw [rejectIf_eq_ok] at hend
    rw [length_abiBytesTail] at hlast
    omega
  refine Agrees.bind (agrees_decodeDynamicBytes (by rw [HEAD_BYTES] at hoffset; omega))
    fun symbol _ => ?_
  refine Agrees.step fun _ _ => Agrees.step fun evmChainId _ => ?_
  refine (bind_assoc (orInvalid (slice (input.drop 4) (4 * 32) ((4 + 1) * 32))) (decodeWord 160)
    _).symm ▸ Agrees.step fun ownerWord howner => ?_
  have hwidth := length_of_word howner
  rw [decodeWord_address hwidth, bind_assoc]
  refine Agrees.guard (by omega) (Agrees.step fun _ _ => ?_)
  refine Agrees.guard (by rw [length_drop]; omega) (Agrees.step fun gasLimit _ => ?_)
  refine Agrees.step fun initialBaseFee _ => Agrees.step fun initialSupply hsupply => ?_
  refine Agrees.guard (length_of_word hsupply).le (Agrees.step fun protocolRevision _ => ?_)
  refine Agrees.step fun _ _ => Agrees.step fun _ _ => ?_
  exact Agrees.step fun _ _ => Agrees.pure _

/-! ## The canonical form -/

def NormalName (bytes : Bytes) : Prop :=
  ∃ name, normalizeName bytes = .ok name ∧ utf8Bytes name = bytes

def NormalSymbol (bytes : Bytes) : Prop :=
  ∃ symbol, normalizeSymbol bytes = .ok symbol ∧ utf8Bytes symbol = bytes

theorem decode_of_encode {bytes : Bytes} (h : encodeCreateChainCall request = .ok bytes) :
    ∃ name symbol, normalizeName (utf8Bytes request.name) = .ok name ∧
      normalizeSymbol (utf8Bytes request.symbol) = .ok symbol ∧
      decodeCreateChainCall bytes = .ok { request with name, symbol } := by
  obtain ⟨name, hname, h⟩ := bind_eq_ok.mp h
  obtain ⟨symbol, hsymbol, h⟩ := bind_eq_ok.mp h
  obtain ⟨hvalid, h⟩ := check_bind_eq_ok.mp h
  have hbytes : bytes = calldata { request with name, symbol } (utf8Bytes name)
      (utf8Bytes symbol) := by
    cases h
    simp only [calldata, headWords, append_assoc]
  refine ⟨name, symbol, hname, hsymbol, ?_⟩
  rw [hbytes]
  exact decode_calldata (length_of_normalizeName hname) (length_of_normalizeSymbol hsymbol)
    (normalizeName_idem hname) (normalizeSymbol_idem hsymbol) hvalid

/-- **The calldata of `createChain` is canonical**: encoding and decoding are inverse up to
the normal form of the texts, which is stable, and decoding does not panic. -/
theorem createChain_calldata_canonical :
    (∀ request bytes, encodeCreateChainCall request = .ok bytes →
      ∃ name symbol, normalizeName (utf8Bytes request.name) = .ok name ∧
        normalizeSymbol (utf8Bytes request.symbol) = .ok symbol ∧
        decodeCreateChainCall bytes = .ok { request with name, symbol }) ∧
    (∀ input request, decodeCreateChainCall input = .ok request →
      ∃ bytes name symbol, encodeCreateChainCall request = .ok bytes ∧
        carriedTexts input = some (name, symbol) ∧
        (bytes = input ↔ NormalName name ∧ NormalSymbol symbol)) ∧
    (∀ bytes name, normalizeName bytes = .ok name → normalizeName (utf8Bytes name) = .ok name) ∧
    (∀ bytes symbol, normalizeSymbol bytes = .ok symbol →
      normalizeSymbol (utf8Bytes symbol) = .ok symbol) ∧
    ∀ input, (decodeCreateChainCallGuarded input).run = some (decodeCreateChainCall input) := by
  refine ⟨fun _ _ => decode_of_encode, ?_, fun _ _ => normalizeName_idem,
    fun _ _ => normalizeSymbol_idem, agrees_decodeCreateChainCall⟩
  intro input request h
  obtain ⟨name, symbol, hcarries⟩ := carries_of_decode h
  obtain ⟨bytes, hencode, hsame⟩ := encode_of_decode h
  refine ⟨bytes, name, symbol, hencode, hcarries.texts, hsame.trans ?_⟩
  rw [hcarries.texts, Option.some.injEq, Prod.mk.injEq]
  constructor
  · intro htexts
    exact ⟨⟨_, hcarries.normalName, htexts.1.symm⟩, _, hcarries.normalSymbol, htexts.2.symm⟩
  · rintro ⟨⟨_, hname, hnameBytes⟩, _, hsymbol, hsymbolBytes⟩
    cases hname.symm.trans hcarries.normalName
    cases hsymbol.symm.trans hcarries.normalSymbol
    exact ⟨hnameBytes.symm, hsymbolBytes.symm⟩

end Calls

end SystemContract

end Arbor
