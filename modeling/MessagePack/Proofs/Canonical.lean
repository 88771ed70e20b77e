import MessagePack.Proofs.RoundTrip
/-
  Canonical encodings: the plain encoders against every other form that a reader takes.

  The table of the format has several tokens for most numbers and for every short blob. Of all that denote a
  value the plain encoder writes one that is not longer than any other, so it never makes a stream longer,
  except that it writes each single as a double. What it has written is its own image: read and written once
  more it comes out byte for byte.

  What is proved:
    1. `length_integer_le_of_denotes`, `blob_le_of_denotes`: no token of a number or a blob is shorter than
       the plain one.
    2. `token_ofValue`: the plain encoder takes every value that a reader gives, and how long its token is.
    3. `plain_tokens`, `exists_plain`: what a whole stream comes to when it is written anew.
    4. `encoding_canonical`: all this for every reader without a limit and for every way to cut a stream.
-/
namespace MessagePack

/-! ## The least widths -/

namespace Width

theorem bytes_leastUnsigned_le {n : Nat} {w : Width} (h : n ≤ w.max) :
    (leastUnsigned n).bytes ≤ w.bytes := by
  unfold leastUnsigned
  -- A field that is narrower than the chosen one has been tried and was too narrow.
  repeat' split
  all_goals cases w <;> simp only [bytes] <;> omega

theorem bytes_leastSigned_le {v : Int} {w : Width} (h : w.holdsSigned v = true) :
    (leastSigned v).bytes ≤ w.bytes := by
  unfold leastSigned
  repeat' split
  all_goals cases w <;> simp only [bytes] <;> first | omega | contradiction

/-- A signed field that holds a number from zero up leaves room for it in an unsigned one. -/
theorem toNat_le_max {v : Int} {w : Width} (h : w.holdsSigned v = true) : v.toNat ≤ w.max := by
  obtain ⟨_, hhigh⟩ := holdsSigned_iff.1 h
  cases w <;> simp only [max, bits, bytes, Nat.pow_eq] at hhigh ⊢ <;> omega

end Width

theorem ofBigEndian_le_max {w : Width} {field : Bytes} (hfield : field.length = w.bytes) :
    ofBigEndian field ≤ w.max := Nat.le_sub_one_of_lt (ofBigEndian_lt_of_field hfield)

/-! ## No shorter token -/

namespace Encoding

theorem length_unsigned_le {n : Nat} {w : Width} (h : n ≤ w.max) :
    (unsigned n).length ≤ 1 + w.bytes := by
  unfold unsigned
  split
  · exact Nat.le_add_right _ _
  · have hleast := Width.bytes_leastUnsigned_le h
    rw [length_unsignedToken, Marker.headerLength]
    omega

theorem length_integer_le {v : Int} {w : Width} (h : w.holdsSigned v = true) :
    (integer v).length ≤ 1 + w.bytes := by
  unfold integer
  split
  · exact length_unsigned_le (Width.toNat_le_max h)
  · split
    · exact Nat.le_add_right _ _
    · have hleast := Width.bytes_leastSigned_le h
      rw [length_signedToken, Marker.headerLength]
      omega

theorem integer_ofNat (n : Nat) : integer n = unsigned n := by
  rw [integer, if_pos (Int.natCast_nonneg n), Int.toNat_natCast]

/-- No token of a number is shorter than the plain one. -/
theorem length_integer_le_of_denotes {t : Bytes} {v : Int} (h : Denotes t (.int v)) :
    (integer v).length ≤ t.length := by
  cases h with
  | fixint b h =>
    have hsmall : b.toNat ≤ 127 := UInt8.le_iff_toNat_le.1 h
    rw [integer_ofNat, unsigned, if_pos hsmall]
    exact Nat.le_refl _
  | negFixint b h =>
    have hlow : 224 ≤ b.toNat := UInt8.le_iff_toNat_le.1 h
    have hhigh := b.toNat_lt
    rw [integer, if_neg (by omega), if_pos (by omega)]
    exact Nat.le_refl _
  | unsigned tag w field hrow hfield =>
    have hlength := length_unsigned_le (ofBigEndian_le_max hfield)
    rw [integer_ofNat, List.length_cons, hfield]
    omega
  | signed tag w field v hrow hfield hlow hhigh hmod =>
    have hlength := length_integer_le (Width.holdsSigned_iff.2 ⟨hlow, hhigh⟩)
    rw [List.length_cons, hfield]
    omega

/-- The header of a blob has the least field for its length, unless there is none for it. -/
theorem blob_eq {data : Bytes} (h : data.length ≤ Width.w32.max) :
    ∃ m : Marker, m.lengthField = some (Width.leastUnsigned data.length) ∧ blob data = blobAs m data := by
  unfold blob Width.leastUnsigned
  by_cases h8 : data.length ≤ Width.w8.max
  · refine ⟨.bin8, ?_, ?_⟩
    · rw [if_pos h8]
      rfl
    · rw [if_pos h8]
  · rw [if_neg h8, if_neg h8]
    by_cases h16 : data.length ≤ Width.w16.max
    · refine ⟨.bin16, ?_, ?_⟩
      · rw [if_pos h16]
        rfl
      · rw [if_pos h16]
    · rw [if_neg h16, if_neg h16, if_pos h, if_pos h]
      exact ⟨.bin32, rfl, rfl⟩

theorem blobAs_of_le {m : Marker} {w : Width} (hm : m.lengthField = some w) {data : Bytes}
    (h : data.length ≤ w.max) : ∃ b, blobAs m data = .ok b ∧ b.length = 1 + w.bytes + data.length := by
  refine ⟨m.toByte :: (w.write data.length ++ data), ?_, ?_⟩
  · simp only [blobAs, hm, h, if_true]
  · rw [List.length_cons, List.length_append, Width.length_write]
    omega

theorem blob_of_le {data : Bytes} {w : Width} (hw : w.max ≤ Width.w32.max) (h : data.length ≤ w.max) :
    ∃ b, blob data = .ok b ∧ b.length ≤ 1 + w.bytes + data.length := by
  have hword : data.length ≤ wordMax := Nat.le_trans (Nat.le_trans h hw) (by decide)
  obtain ⟨m, hm, hblob⟩ := blob_eq (Nat.le_trans h hw)
  obtain ⟨b, hb, hlength⟩ := blobAs_of_le hm (Width.le_leastUnsigned hword)
  have hleast := Width.bytes_leastUnsigned_le h
  refine ⟨b, hblob.trans hb, ?_⟩
  omega

/-- No token of a blob is shorter than the plain one. -/
theorem blob_le_of_denotes {t data : Bytes} (h : Denotes t (.bin data)) :
    ∃ b, blob data = .ok b ∧ b.length ≤ t.length := by
  cases h with
  | blob tag w field data hrow hfield hdata =>
    have hmax := ofBigEndian_le_max hfield
    rw [hdata] at hmax
    have hw : w.max ≤ Width.w32.max := by
      simp only [blobRows, List.mem_cons, Prod.mk.injEq, List.not_mem_nil, or_false] at hrow
      obtain ⟨_, rfl⟩ | ⟨_, rfl⟩ | ⟨_, rfl⟩ := hrow <;> decide
    obtain ⟨b, hb, hlength⟩ := blob_of_le hw hmax
    refine ⟨b, hb, ?_⟩
    rw [List.length_cons, List.length_append, hfield]
    omega

end Encoding

/-! ## Values that were read -/

/-- The call that writes a value in its plain form. -/
def Entry.ofValue : Value Bytes → Entry
  | .nil => .nil
  | .bool b => .bool b
  | .int v => .integer v
  | .float x => .float64 x
  | .bin data => .blob data

namespace Entry

theorem encode_ofValue (v : Value Bytes) : (ofValue v).encode = Encoding.value v := by
  cases v <;> rfl

@[simp] theorem value?_ofValue (v : Value Bytes) : (ofValue v).value? = some v := by
  cases v <;> rfl

theorem filterMap_value?_ofValue (vs : List (Value Bytes)) :
    (vs.map ofValue).filterMap value? = vs := by
  rw [List.filterMap_map]
  have hcompose : value? ∘ ofValue = some := funext value?_ofValue
  rw [hcompose, List.filterMap_some]

/-- Whether a token is a single. -/
def isSingle (t : Bytes) : Bool := t.head? = some Marker.float32.toByte

theorem succeeds_of_encode {e : Entry} (hcall : e.IsCall) {b : Bytes} (h : e.encode = .ok b) :
    e.Succeeds ∧ e.token = b := by
  have htoken : e.token = b := by
    rw [token, h]
    rfl
  exact ⟨⟨hcall, by rw [htoken, h]⟩, htoken⟩

/-- No token denotes a number below the least signed one. -/
theorem le_of_denotes {t : Bytes} {v : Int} (h : Denotes t (.int v)) : -(2 : Int) ^ 63 ≤ v := by
  cases h with
  | fixint b h => omega
  | negFixint b h => omega
  | unsigned tag w field hrow hfield => omega
  | signed tag w field v hrow hfield hlow hhigh hmod =>
    cases w <;> simp only [Width.bits, Width.bytes] at hlow <;> omega

/-- The plain encoder takes every value that a reader gives, and its token is longer than the one that was
read only for a single. -/
theorem token_ofValue {t : Bytes} {v : Value Bytes} (h : Denotes t v) (hv : Acceptable none v) :
    (ofValue v).Succeeds ∧ (ofValue v).token.length ≤ t.length + 4 * (isSingle t).toNat := by
  cases v with
  | nil =>
    cases h
    exact ⟨⟨trivial, rfl⟩, by decide⟩
  | bool b =>
    refine ⟨⟨trivial, rfl⟩, ?_⟩
    cases h <;> decide
  | int i =>
    have hhigh : i < (2 : Int) ^ 63 := by
      have hle : i ≤ (int64Max : Nat) := hv
      unfold int64Max at hle
      omega
    obtain ⟨hsucceeds, htoken⟩ :=
      succeeds_of_encode (e := .integer i) ⟨le_of_denotes h, hhigh⟩ rfl
    have hlength := Encoding.length_integer_le_of_denotes h
    refine ⟨hsucceeds, ?_⟩
    show (Entry.integer i).token.length ≤ _
    rw [htoken]
    omega
  | float x =>
    have hlength : (ofValue (.float x)).token.length = 9 := by
      show (Encoding.float64 x).length = 9
      simp [Encoding.float64, Width.bytes]
    refine ⟨⟨trivial, rfl⟩, ?_⟩
    rw [hlength]
    cases h with
    | single field _ hfield =>
      have hsingle : isSingle (0xca :: field) = true := rfl
      rw [List.length_cons, hfield, hsingle]
      decide
    | double field hfield =>
      rw [List.length_cons, hfield]
      omega
  | bin data =>
    obtain ⟨b, hb, hlength⟩ := Encoding.blob_le_of_denotes h
    obtain ⟨hsucceeds, htoken⟩ := succeeds_of_encode (e := .blob data) trivial hb
    refine ⟨hsucceeds, ?_⟩
    show (Entry.blob data).token.length ≤ _
    rw [htoken]
    omega

theorem overflow?_ofValue {v : Value Bytes} (hv : Acceptable none v) : (ofValue v).overflow? = none := by
  unfold overflow?
  rw [value?_ofValue]
  cases v with
  | int i => exact if_neg (Int.not_lt.2 hv)
  | _ => rfl

end Entry

theorem Encoding.values_eq_written {vs : List (Value Bytes)}
    (h : ∀ v ∈ vs, (Entry.ofValue v).Succeeds) : values vs = .ok (written (vs.map Entry.ofValue)) := by
  induction vs with
  | nil => rfl
  | cons v vs ih =>
    obtain ⟨hv, hrest⟩ := List.forall_mem_cons.1 h
    have hfirst : value v = .ok (Entry.ofValue v).token := by
      rw [← Entry.encode_ofValue, hv.encode_eq]
    simp only [values, hfirst, ih hrest]
    rfl

/-! ## Streams that were read -/

/-- The strings of the tokens that were read from the front of a string. -/
def tokenStrings {α : Type} : List (Reading α) → Bytes → List Bytes
  | [], _ => []
  | reading :: readings, s => s.take reading.consumed :: tokenStrings readings (s.drop reading.consumed)

/-- How many tokens of a string are singles. -/
def singles (s : Bytes) : Nat := (tokenStrings (tokenise none 0 s).tokens s).countP Entry.isSingle

/-- A token that is found, in the words of the grammar. -/
theorem denotes_of_scanBytes {limit : Option Nat} {offset : Nat} {s : Bytes} {v : Value Extent} {n : Nat}
    (h : scanBytes limit offset s = .ok (.complete v n)) :
    Denotes (s.take n) (v.map (·.within s)) ∧ Acceptable limit (v.map (·.within s)) := by
  have hstands := stands_iff.2 h
  generalize hanswer : Except.ok (Scan.complete v n) = answer at hstands
  cases hstands with
  | token m value hm hdenotes hacceptable =>
    simp only [Except.ok.injEq, Scan.complete.injEq] at hanswer
    obtain ⟨rfl, rfl⟩ := hanswer
    have hvalue := hdenotes.within_payload (s.drop n)
    rw [List.take_append_drop, List.length_take_of_le hm] at hvalue
    rw [hvalue]
    exact ⟨hdenotes, hacceptable⟩
  | _ => cases hanswer

/-- What a reader without a limit has read can be written plainly, and how long it is then. -/
theorem plain_tokens (offset : Nat) (s : Bytes) :
    (∀ reading ∈ (tokenise none offset s).tokens, (Entry.ofValue reading.value).Succeeds ∧
      (Entry.ofValue reading.value).overflow? = none) ∧
    (written ((tokenise none offset s).tokens.map fun reading => Entry.ofValue reading.value)).length
      ≤ consumedBy (tokenise none offset s).tokens
        + 4 * (tokenStrings (tokenise none offset s).tokens s).countP Entry.isSingle := by
  fun_induction tokenise none offset s with
  | case1 offset s e h => exact ⟨by simp, Nat.zero_le _⟩
  | case2 offset s h => exact ⟨by simp, Nat.zero_le _⟩
  | case3 offset s v n h _ ih =>
    obtain ⟨hall, hlength⟩ := ih
    obtain ⟨hdenotes, hacceptable⟩ := denotes_of_scanBytes h
    obtain ⟨hsucceeds, hfirst⟩ := Entry.token_ofValue hdenotes hacceptable
    generalize tokenise none (offset + n) (s.drop n) = t at hall hlength ⊢
    have hn := (scanBytes_bounds h).2
    refine ⟨?_, ?_⟩
    · intro reading hreading
      obtain rfl | hrest := List.mem_cons.1 hreading
      · exact ⟨hsucceeds, Entry.overflow?_ofValue hacceptable⟩
      · exact hall reading hrest
    · rw [List.length_take_of_le hn] at hfirst
      have hcount : (s.take n :: tokenStrings t.tokens (s.drop n)).countP Entry.isSingle
          = (tokenStrings t.tokens (s.drop n)).countP Entry.isSingle
            + (Entry.isSingle (s.take n)).toNat := by
        rw [List.countP_cons]
        cases Entry.isSingle (s.take n) <;> rfl
      have hwritten : (written ((t.behind [⟨v.map (·.within s), n⟩]).tokens.map
          fun reading => Entry.ofValue reading.value)).length
          = (Entry.ofValue (v.map (·.within s))).token.length
            + (written (t.tokens.map fun reading => Entry.ofValue reading.value)).length :=
        List.length_append
      show _ ≤ n + consumedBy t.tokens
        + 4 * (s.take n :: tokenStrings t.tokens (s.drop n)).countP Entry.isSingle
      rw [hwritten, hcount]
      omega

/-- A whole stream of calls without a number that is too large is read as all their values. -/
theorem decodedOf_all {entries : List Entry} (h : entries.findSome? Entry.overflow? = none) :
    decodedOf (written entries).length entries = .ok ⟨entries.filterMap Entry.value?, 0⟩ := by
  have hwhole : wholeWithin (written entries).length entries = entries := wholeWithin_of_le (Nat.le_refl _)
  rw [decodedOf, hwhole, h, Nat.sub_self]

/-- What was read with nothing left over can be written plainly and is read from there again. -/
theorem exists_plain {s : Bytes} {vs : List (Value Bytes)}
    (h : (tokenise none 0 s).decoded = .ok ⟨vs, 0⟩) :
    ∃ b, Encoding.values vs = .ok b ∧ b.length ≤ s.length + 4 * singles s ∧
      (tokenise none 0 b).decoded = .ok ⟨vs, 0⟩ := by
  obtain ⟨hplain, hlength⟩ := plain_tokens 0 s
  have hconsumed := (tokenises none 0 s).consumed_le
  have hvs : vs = (tokenise none 0 s).tokens.map (·.value) := by
    unfold Tokenisation.decoded at h
    split at h
    · cases h
    · injection h with h
      injection h with hvalues _
      exact hvalues.symm
  have hcalls : ∀ v ∈ vs, (Entry.ofValue v).Succeeds ∧ (Entry.ofValue v).overflow? = none := by
    intro v hv
    rw [hvs] at hv
    obtain ⟨reading, hreading, rfl⟩ := List.mem_map.1 hv
    exact hplain reading hreading
  have hentries : (tokenise none 0 s).tokens.map (fun reading => Entry.ofValue reading.value)
      = vs.map Entry.ofValue := by
    rw [hvs, List.map_map]
    rfl
  rw [hentries] at hlength
  refine ⟨written (vs.map Entry.ofValue), ?_, ?_, ?_⟩
  · exact Encoding.values_eq_written fun v hv => (hcalls v hv).1
  · unfold singles
    omega
  · have hsucceed : ∀ e ∈ vs.map Entry.ofValue, e.Succeeds := by
      intro e he
      obtain ⟨v, hv, rfl⟩ := List.mem_map.1 he
      exact (hcalls v hv).1
    have hover : (vs.map Entry.ofValue).findSome? Entry.overflow? = none := by
      apply List.findSome?_eq_none_iff.2
      intro e he
      obtain ⟨v, hv, rfl⟩ := List.mem_map.1 he
      exact (hcalls v hv).2
    have htokens := tokenise_take hsucceed (written (vs.map Entry.ofValue)).length
    rw [List.take_length] at htokens
    rw [htokens, decoded_streamOf (Nat.le_refl _), decodedOf_all hover, Entry.filterMap_value?_ofValue]

/-! ## Decodings that come to an end -/

namespace Reader

/-- Pieces that are decoded to their end have all been granted room. -/
theorem fits_of_continueFrom {r : Reader} (h : r.arena.WellFormed) (hopen : r.arena.messageComplete = false)
    {pieces : List Bytes} {values : List (Value Bytes)} {reads feeds : Nat} {d : Decoded}
    (hdecoded : (Decoding.continueFrom r pieces values reads feeds).outcome = .ok d) :
    r.arena.Fits pieces.flatten.length := by
  have hfinding := finding h hopen
  fun_induction Decoding.continueFrom r pieces values reads feeds with
  | case1 r pieces values reads feeds f r' es hread => cases hdecoded
  | case2 r pieces values reads feeds v n r' es hread e hresolve => cases hdecoded
  | case3 r pieces values reads feeds v n r' es hread value hresolve hless ih =>
    rw [hread] at hfinding
    cases hfinding with
    | found v n hfront =>
      -- Reading moves the cursor only, and the cursor has no part in how much room there is.
      have hwf := Arena.wellFormed_consume h (le_remaining_of_front h hfront).2
      exact ih hwf hopen hdecoded (finding hwf hopen)
  | case4 r values reads feeds r' es hread => exact .inl h.usedEnd_le
  | case5 r values reads feeds r' es hread piece pieces f r'' es' hfeed => cases hdecoded
  | case6 r values reads feeds r' es hread piece pieces r'' es' hfeed ih =>
    rw [hread] at hfinding
    cases hfinding with
    | lacking hfront =>
      have hroom := capacity_feed h piece
      obtain ⟨_, f, hrefused⟩ | ⟨_, a, _, hgranted, hextends⟩ := feed_cases h piece
      · rw [hrefused] at hfeed
        cases hfeed
      · rw [hgranted] at hfeed hroom
        cases hfeed
        have hnext : (r.withArena a).arena.messageComplete = false := hextends.messageComplete_eq.trans hopen
        have hlater := ih hextends.wellFormed hnext hdecoded (finding hextends.wellFormed hnext)
        rw [List.flatten_cons, List.length_append]
        exact hroom.fits hextends.usedEnd_eq hextends.allocator_eq hlater

theorem fits_of_withCuts {s : Bytes} {cuts : List Nat} {d : Decoded}
    (h : (Decoding.withCuts s cuts).outcome = .ok d) : small.arena.Fits s.length := by
  have hs := streaming_create { initialCapacity := 16 }
  have hfits : small.arena.Fits (split s cuts).flatten.length :=
    fits_of_continueFrom hs.wellFormed hs.open_eq h
  rwa [flatten_split] at hfits

/-- A decoding that comes to its end goes by the tokens of the whole. -/
theorem decoded_of_withCuts {s : Bytes} {cuts : List Nat} {d : Decoded}
    (h : (Decoding.withCuts s cuts).outcome = .ok d) : (tokenise none 0 s).decoded = .ok d := by
  rw [← outcome_withCuts (fits_of_withCuts h) cuts, h]

end Reader

/-! ## The plain encoder -/

/-- A call to an unlimited reader takes all unread bytes as one token. -/
theorem Reader.denotes_of_read {r : Reader} (h : r.arena.WellFormed) (hlimit : r.config.maxBlobLength = none)
    {call : ReadCall} {v : Value View} (hread : (r.read call).outcome = .ok (.decoded v r.arena.unread.length)) :
    ∃ value, (r.read call).state.resolve v = .ok value ∧ Denotes r.arena.unread value ∧
      Acceptable none value := by
  obtain ⟨_, hcase⟩ | ⟨_, hcase⟩ := read_cases h call
  · rw [hcase] at hread
    cases hread
  · rw [hcase] at hread ⊢
    cases hfront : r.front with
    | error e =>
      rw [hfront] at hread
      cases hread
    | ok scan =>
      cases scan with
      | incomplete =>
        rw [hfront] at hread
        cases hread
      | complete found n =>
        rw [hfront] at hread
        simp only [settle, Reply.outcome_done, Except.ok.injEq, Progress.decoded.injEq] at hread
        obtain ⟨rfl, hn⟩ := hread
        refine ⟨_, resolve_settled h hfront, ?_⟩
        rw [front, hlimit] at hfront
        have hdenotes := denotes_of_scanBytes hfront
        rwa [hn, List.take_length] at hdenotes

/-- A call that the writer takes adds its token. -/
theorem Writer.put_of_encode (w : Writer) {e : Entry} {b : Bytes} (h : e.encode = .ok b) :
    w.put e = (none, ⟨w.bytes ++ b⟩) := by
  simp only [put, h]

/-- The plain encoder is canonical. Whatever token of a number or a blob an unlimited reader takes, the plain
one is not longer; a number from zero up is written alike with and without a sign; and a stream that was read
to its end comes out of the plain encoder with the same values, not longer but for four bytes a single, and
is reproduced by reading and writing it again, as far as there is room for it. -/
theorem encoding_canonical :
    (∀ r : Reader, r.Reachable → r.config.maxBlobLength = none → ∀ call v,
      (r.read call).outcome = .ok (.decoded v r.arena.unread.length) →
      ∃ value, (r.read call).state.resolve v = .ok value ∧ ∀ w : Writer,
        (∀ i, value = .int i → (w.put (.integer i)).1 = none ∧
          (w.put (.integer i)).2.bytes.length ≤ w.bytes.length + r.arena.unread.length) ∧
        ∀ data, value = .bin data → (w.put (.blob data)).1 = none ∧
          (w.put (.blob data)).2.bytes.length ≤ w.bytes.length + r.arena.unread.length) ∧
    (∀ (w : Writer) (n : Nat), n ≤ int64Max → w.put (.unsigned n) = w.put (.integer n)) ∧
    ∀ (s : Bytes) (cuts : List Nat) (vs : List (Value Bytes)),
      (Decoding.withCuts s cuts).outcome = .ok ⟨vs, 0⟩ →
      ∃ b, Encoding.values vs = .ok b ∧ b.length ≤ s.length + 4 * singles s ∧
        ∀ cuts', (b.length ≤ s.length ∨ Reader.small.Granted ((split b cuts').map .feed) →
            (Decoding.withCuts b cuts').outcome = .ok ⟨vs, 0⟩) ∧
          ∀ d, (Decoding.withCuts b cuts').outcome = .ok d →
            d.leftover = 0 ∧ Encoding.values d.values = .ok b := by
  refine ⟨?tokens, ?unsigned, ?streams⟩
  case tokens =>
    intro r hreachable hlimit call v hread
    obtain ⟨value, hresolve, hdenotes, hacceptable⟩ :=
      Reader.denotes_of_read hreachable.wellFormed hlimit hread
    refine ⟨value, hresolve, ?_⟩
    intro w
    refine ⟨?_, ?_⟩
    · intro i hvalue
      subst hvalue
      have hlength := Encoding.length_integer_le_of_denotes hdenotes
      rw [w.put_of_encode (e := .integer i) rfl]
      refine ⟨rfl, ?_⟩
      show (w.bytes ++ Encoding.integer i).length ≤ _
      rw [List.length_append]
      omega
    · intro data hvalue
      subst hvalue
      obtain ⟨b, hb, hlength⟩ := Encoding.blob_le_of_denotes hdenotes
      rw [w.put_of_encode (e := .blob data) hb]
      refine ⟨rfl, ?_⟩
      show (w.bytes ++ b).length ≤ _
      rw [List.length_append]
      omega
  case unsigned =>
    intro w n _
    rw [w.put_of_encode (e := .unsigned n) rfl, w.put_of_encode (e := .integer n) rfl,
      Encoding.integer_ofNat]
  case streams =>
    intro s cuts vs hdecoded
    obtain ⟨b, hb, hlength, hagain⟩ := exists_plain (Reader.decoded_of_withCuts hdecoded)
    refine ⟨b, hb, hlength, ?_⟩
    intro cuts'
    refine ⟨?_, ?_⟩
    · rintro (hle | hgranted)
      · -- There was room for the first stream, so there is for one that is not longer.
        have hroom : Reader.small.arena.Fits (b.length + (s.length - b.length)) := by
          rw [Nat.add_sub_cancel' hle]
          exact Reader.fits_of_withCuts hdecoded
        rw [Reader.outcome_withCuts hroom.first, hagain]
      · rw [outcome_withCuts_of_granted hgranted, hagain]
    · intro d hd
      have hsame := (Reader.decoded_of_withCuts hd).symm.trans hagain
      injection hsame with hsame
      subst hsame
      exact ⟨rfl, hb⟩

/-- A single and a small number in a field of two bytes. -/
def roundabout : Bytes := [0xca, 0x3f, 0xc0, 0, 0, 0xd1, 0, 5]

/-- They are written as a double and a byte, and read from there again. -/
theorem encoding_canonical_roundabout :
    (Decoding.withCuts [0xcb, 0x3f, 0xf8, 0, 0, 0, 0, 0, 0, 5] [3]).outcome
      = .ok ⟨[.float ⟨0x3ff8000000000000⟩, .int 5], 0⟩ := by
  have hgranted : Reader.small.Granted ((split roundabout [2]).map .feed) := by
    refine ⟨?_, ?_, trivial⟩
    all_goals
      intro bytes hbytes
      cases hbytes
      rfl
  have hsingle : scanBytes none 0 roundabout = .ok (.complete (.float ⟨0x3ff8000000000000⟩) 5) := rfl
  have hnumber : scanBytes none 5 (roundabout.drop 5) = .ok (.complete (.int 5) 3) := rfl
  have hend : (roundabout.drop 5).drop 3 = [] := rfl
  have hdecoded : (Decoding.withCuts roundabout [2]).outcome
      = .ok ⟨[.float ⟨0x3ff8000000000000⟩, .int 5], 0⟩ := by
    rw [outcome_withCuts_of_granted hgranted, tokenise_of_complete hsingle,
      tokenise_of_complete hnumber, hend, tokenise_nil]
    rfl
  obtain ⟨b, hb, _, hagain⟩ := encoding_canonical.2.2 roundabout [2] _ hdecoded
  have hplain : b = [0xcb, 0x3f, 0xf8, 0, 0, 0, 0, 0, 0, 5] := Except.ok.inj (hb.symm.trans rfl)
  subst hplain
  refine (hagain [3]).1 (.inr ⟨?_, ?_, trivial⟩)
  all_goals
    intro bytes hbytes
    cases hbytes
    rfl

end MessagePack
