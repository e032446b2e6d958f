import NetLabs.Lib.CText
import NetLabs.Lib.Marker

/-!
# Uploading a file to be encrypted

The client sends the key, the file and `EOF_MARKER` on one stream; the server takes the key from one `recv` and the file from as many
as it needs until one of them has the marker in it. TCP may cut the stream anywhere.
-/

namespace NetLabs.Crypt

open CText Marker

/-! ## The code -/

def eofMarker : List UInt8 := text "EOF_MARKER"

/-- `recv(client_sock, key, 26, 0); key[26] = '\0';` where `key` had 27 bytes before. -/
def receiveKey (old chunk : List UInt8) : List UInt8 := (chunk ++ old.drop chunk.length).set 26 0

/-- The body of the receive loop: the file with what it gets of a chunk, and whether the loop is left. -/
def storeChunk (file chunk : List UInt8) : List UInt8 × Bool :=
  match find eofMarker (cstr chunk) with
  | some i => (file ++ (cstr chunk).take i, true)
  | none => (file ++ chunk, false)

/-- What has come of the loop: the temporary file, whether the marker has ended it, and the chunks left on the connection. -/
structure Received where
  file : List UInt8
  marker : Bool
  rest : List (List UInt8)
  deriving DecidableEq

/-- The receive loop of `recieve_encrypt_send`; after the last chunk `recv` has nothing more to return. -/
def receiveFile (file : List UInt8) : List (List UInt8) → Received
  | [] => ⟨file, false, []⟩
  | c :: cs => if (storeChunk file c).2 then ⟨(storeChunk file c).1, true, cs⟩ else receiveFile (storeChunk file c).1 cs

/-! ## An upload -/

/-- A key and a file, and what the calls of `recv` return of the stream they are sent on. -/
structure Upload where
  key : List UInt8
  content : List UInt8
  keyChunk : List UInt8
  chunks : List (List UInt8)
  key_length : key.length = 26
  noNul : (0 : UInt8) ∉ content
  noMarker : ¬eofMarker <:+: content
  keyChunk_ne : keyChunk ≠ []
  keyChunk_le : keyChunk.length ≤ 26
  chunk_ne : ∀ c ∈ chunks, c ≠ []
  chunk_le : ∀ c ∈ chunks, c.length ≤ 100
  stream : keyChunk ++ chunks.flatten = key ++ content ++ eofMarker

/-- The server has exactly the key, whatever was in its array before, and leaves the loop at the marker with exactly the content. -/
def Upload.Framed (u : Upload) : Prop :=
  (∀ old, old.length = 27 → (receiveKey old u.keyChunk).take 26 = u.key) ∧ receiveFile [] u.chunks = ⟨u.content, true, []⟩

variable {file content : List UInt8} {chunks : List (List UInt8)} {u : Upload}

theorem eofMarker_borderless : Borderless eofMarker := by decide

theorem zero_not_mem_eofMarker : (0 : UInt8) ∉ eofMarker := by decide

/-- On chunks without a NUL the loop collects what comes before the marker. -/
theorem receiveFile_eq (h : ∀ c ∈ chunks, (0 : UInt8) ∉ c) : receiveFile file chunks =
    ⟨file ++ (collect eofMarker chunks).content, (collect eofMarker chunks).found, (collect eofMarker chunks).rest⟩ := by
  induction chunks generalizing file with
  | nil => simp [receiveFile, collect]
  | cons c cs ih =>
    rw [List.forall_mem_cons] at h
    unfold receiveFile collect storeChunk
    rw [cstr_of_not_mem h.1]
    cases find eofMarker c with
    | none => simp [ih h.2]
    | some i => simp

/-- The key comes whole, whatever was in the array, exactly when `recv` returns all of it at once. -/
theorem receiveKey_iff {key rest keyChunk tail : List UInt8} (hkey : key.length = 26) (hle : keyChunk.length ≤ 26)
    (hs : keyChunk ++ tail = key ++ rest) :
    (∀ old, old.length = 27 → (receiveKey old keyChunk).take 26 = key) ↔ keyChunk.length = 26 := by
  constructor
  · intro h
    by_contra hshort
    -- the byte behind a shorter chunk is the array's
    have hbyte : ∀ b : UInt8, key[keyChunk.length]? = some b := by
      intro b
      have hlt : keyChunk.length < 26 := by omega
      rw [← h (List.replicate 27 b) List.length_replicate, List.getElem?_take_of_lt hlt, receiveKey, List.getElem?_set_ne (by omega),
        List.getElem?_append_right (Nat.le_refl _), List.drop_replicate, Nat.sub_self, List.getElem?_replicate_of_lt (by omega)]
    have hsame := (hbyte 0).symm.trans (hbyte 1)
    exact absurd (Option.some.inj hsame) (by decide)
  · intro hlen old hold
    obtain ⟨rfl, -⟩ := List.append_inj hs (by rw [hlen, hkey])
    rw [receiveKey, List.take_set, ← hlen, List.take_left, List.set_eq_of_length_le (Nat.le_refl _)]

/-- An upload arrives as it is exactly when the first `recv` returns the whole key and the last one the whole marker. -/
theorem framed_iff (u : Upload) :
    u.Framed ↔ u.keyChunk.length = 26 ∧ ∃ init c, u.chunks = init ++ [c] ∧ 10 ≤ c.length := by
  unfold Upload.Framed
  rw [receiveKey_iff u.key_length u.keyChunk_le (u.stream.trans (List.append_assoc _ _ _))]
  refine and_congr_right fun hlen => ?_
  have hsplit := u.stream
  rw [List.append_assoc] at hsplit
  obtain ⟨-, hflatten⟩ := List.append_inj hsplit (by rw [hlen, u.key_length])
  have hnul : ∀ c ∈ u.chunks, (0 : UInt8) ∉ c := by
    intro c hc hzero
    have hmem : (0 : UInt8) ∈ u.content ++ eofMarker := hflatten ▸ List.mem_flatten_of_mem hc hzero
    rcases List.mem_append.1 hmem with hmem | hmem
    · exact u.noNul hmem
    · exact zero_not_mem_eofMarker hmem
  refine Iff.trans ?_ (collect_iff eofMarker_borderless u.noMarker hflatten)
  rw [receiveFile_eq hnul, List.nil_append]
  cases collect eofMarker u.chunks with
  | mk content found rest => simp

/-- Five bytes of the marker come with the content, the others by themselves. -/
def cutMarker : Upload where
  key := text "QWERTYUIOPASDFGHJKLZXCVBNM"
  content := text "A"
  keyChunk := text "QWERTYUIOPASDFGHJKLZXCVBNM"
  chunks := [text "AEOF_M", text "ARKER"]
  key_length := by decide
  noNul := by decide
  noMarker := by decide
  keyChunk_ne := by decide
  keyChunk_le := by decide
  chunk_ne := by decide
  chunk_le := by decide
  stream := by decide

/-- The server does not see the marker: all of it is in the file, and the loop goes on. -/
theorem cutMarker_not_framed : ¬cutMarker.Framed := by
  rintro ⟨-, h⟩
  exact absurd h (by decide)

end NetLabs.Crypt
