import Mathlib.Data.List.Basic
import GraphReorder.Library.Memory

/-! Binary files of 32-bit words, least significant byte first, and block reads that may come
up short. -/
namespace GraphReorder.Library

def wordBytes (w : Nat) : List UInt8 :=
  [UInt8.ofNat w, UInt8.ofNat (w / 2 ^ 8), UInt8.ofNat (w / 2 ^ 16), UInt8.ofNat (w / 2 ^ 24)]

def wordsBytes (ws : List Nat) : List UInt8 := ws.flatMap wordBytes

def bytesWord (a b c d : UInt8) : Nat :=
  a.toNat + 2 ^ 8 * b.toNat + 2 ^ 16 * c.toNat + 2 ^ 24 * d.toNat

def bytesWords : List UInt8 → List Nat
  | a :: b :: c :: d :: bytes => bytesWord a b c d :: bytesWords bytes
  | _ => []

structure Stream where
  rest : List UInt8
  eof : Bool

/-- `count` words are asked for; the flag is set when fewer bytes are delivered. -/
def fread (count : Nat) (fp : Stream) : List Nat × Stream :=
  (bytesWords (fp.rest.take (4 * count)),
    ⟨fp.rest.drop (4 * count), fp.eof || decide (fp.rest.length < 4 * count)⟩)

/-- One word into a variable. It keeps its value when there is no byte left; a word that is
delivered in part leaves it indeterminate. -/
def freadWord (old : Nat) (fp : Stream) : Option (Nat × Stream) :=
  match fread 1 fp with
  | ([w], fp') => some (w, fp')
  | (_, fp') => if fp.rest.length = 0 then some (old, fp') else none

def fwrite (a : Array Nat) (count : Nat) : Option (List UInt8) :=
  if count ≤ a.size then some (wordsBytes (a.toList.take count)) else none

@[simp] theorem wordBytes_length (w : Nat) : (wordBytes w).length = 4 := rfl

@[simp] theorem wordsBytes_nil : wordsBytes [] = [] := rfl

theorem wordsBytes_cons (w : Nat) (ws : List Nat) :
    wordsBytes (w :: ws) = wordBytes w ++ wordsBytes ws := rfl

theorem wordsBytes_length (ws : List Nat) : (wordsBytes ws).length = 4 * ws.length := by
  induction ws with
  | nil => rfl
  | cons w ws ih =>
    rw [wordsBytes_cons, List.length_append, ih, wordBytes_length, List.length_cons]
    omega

theorem bytesWords_wordBytes {w : Nat} (hw : w < 2 ^ 32) (bytes : List UInt8) :
    bytesWords (wordBytes w ++ bytes) = w :: bytesWords bytes := by
  have hword : bytesWord (UInt8.ofNat w) (UInt8.ofNat (w / 2 ^ 8)) (UInt8.ofNat (w / 2 ^ 16))
      (UInt8.ofNat (w / 2 ^ 24)) = w := by
    simp only [bytesWord, UInt8.toNat_ofNat']
    omega
  rw [wordBytes, List.cons_append, List.cons_append, List.cons_append, List.cons_append,
    List.nil_append, bytesWords, hword]

theorem bytesWords_wordsBytes {ws : List Nat} (h : ∀ w ∈ ws, w < 2 ^ 32) :
    bytesWords (wordsBytes ws) = ws := by
  induction ws with
  | nil => simp [bytesWords]
  | cons w ws ih =>
    rw [wordsBytes_cons, bytesWords_wordBytes (h w List.mem_cons_self),
      ih fun x hx => h x (List.mem_cons_of_mem w hx)]

theorem fread_words {ws : List Nat} (h : ∀ w ∈ ws, w < 2 ^ 32) (rest : List UInt8) (eof : Bool) :
    fread ws.length ⟨wordsBytes ws ++ rest, eof⟩ = (ws, ⟨rest, eof⟩) := by
  have hlen := wordsBytes_length ws
  have hle : ¬ (wordsBytes ws ++ rest).length < 4 * ws.length := by
    rw [List.length_append]
    omega
  simp only [fread, ← hlen, List.take_left, List.drop_left]
  rw [bytesWords_wordsBytes h, hlen, decide_eq_false hle, Bool.or_false]

theorem freadWord_word {w : Nat} (hw : w < 2 ^ 32) (old : Nat) (rest : List UInt8) (eof : Bool) :
    freadWord old ⟨wordBytes w ++ rest, eof⟩ = some (w, ⟨rest, eof⟩) := by
  have hread : fread [w].length ⟨wordsBytes [w] ++ rest, eof⟩ = ([w], ⟨rest, eof⟩) :=
    fread_words (fun x hx => by rw [List.mem_singleton.mp hx]; exact hw) rest eof
  rw [wordsBytes_cons, wordsBytes_nil, List.append_nil, List.length_singleton] at hread
  rw [freadWord, hread]

theorem fread_short {count : Nat} {fp : Stream} (h : fp.rest.length < 4 * count) :
    (fread count fp).2.eof = true := by
  rw [fread, decide_eq_true h, Bool.or_true]

theorem fwrite_eq {a : Array Nat} {count : Nat} (h : count ≤ a.size) :
    fwrite a count = some (wordsBytes (a.toList.take count)) := if_pos h

end GraphReorder.Library
