import BtcIndexer.Types
import BtcIndexer.Numerals

/-! Hashes and addresses as texts. The service prints them with the traits of its libraries and
parses what it reads back with `from_str`; that a printed text parses to the value it was
printed from is all it relies on. -/
namespace BtcIndexer
open Numerals

abbrev Text := List Char

structure TextForm (α : Type) where
  text : α → Text
  fromStr : Text → Option α
  fromStr_text : ∀ a, fromStr (text a) = some a

def TextForm.map {α β : Type} (form : TextForm α) (wrap : α → β) (unwrap : β → α)
    (h : ∀ b, wrap (unwrap b) = b) : TextForm β where
  text := fun b => form.text (unwrap b)
  fromStr := fun text => (form.fromStr text).map wrap
  fromStr_text := fun b => by rw [form.fromStr_text, Option.map_some, h]

/-- The texts of the three types that columns hold. For hashes `{:x}`, `{:?}` and `to_string`
print the same text, and addresses are those of the service's network. -/
structure TextForms where
  hash : TextForm BlockHash
  txid : TextForm Txid
  address : TextForm Address
  txid_length : ∀ t, (txid.text t).length = 64

def hexadecimal : Alphabet Char 16 where
  symbols := ['0', '1', '2', '3', '4', '5', '6', '7', '8', '9', 'a', 'b', 'c', 'd', 'e', 'f']
  size := rfl
  distinct := by decide

def lowered (text : Text) : Text := text.map Char.toLower

def isLowered (c : Char) : Bool := c.toLower == c && !c.isUpper

theorem lowered_eq {text : Text} (h : ∀ c ∈ text, isLowered c = true) : lowered text = text :=
  (List.map_congr_left fun c hc =>
    eq_of_beq ((Bool.and_eq_true _ _).mp (h c hc)).1).trans (List.map_id text)

/-- A hash as 64 digits, which are read in either case. -/
def hexForm : TextForm (BitVec 256) where
  text := fun bytes => hexadecimal.write 64 bytes.toNat
  fromStr := fun text => (hexadecimal.number 64 (lowered text)).map (BitVec.ofNat 256)
  fromStr_text := fun bytes => by
    have hlt : bytes.toNat < 16 ^ 64 := Nat.lt_of_lt_of_eq bytes.isLt (by decide)
    have hsymbols : hexadecimal.symbols.all isLowered = true := by decide
    have hlower : lowered (hexadecimal.write 64 bytes.toNat) = hexadecimal.write 64 bytes.toNat :=
      lowered_eq fun c hc => List.all_eq_true.mp hsymbols c (Alphabet.mem_of_mem_spell hc)
    rw [hlower, hexadecimal.number_write (by decide) hlt, Option.map_some, BitVec.ofNat_toNat,
      BitVec.setWidth_eq]

namespace Bech32m

def charset : Alphabet Char 32 where
  symbols := ['q', 'p', 'z', 'r', 'y', '9', 'x', '8', 'g', 'f', '2', 't', 'v', 'd', 'w', '0',
    's', '3', 'j', 'n', '5', '4', 'k', 'h', 'c', 'e', '6', 'm', 'u', 'a', '7', 'l']
  size := rfl
  distinct := by decide

def polymodStep (chk value : Nat) : Nat :=
  [0x3b6a57b2, 0x26508e6d, 0x1ea119fa, 0x3d4233dd, 0x2a1462b3].zipIdx.foldl
    (fun chk' gen => if (chk >>> 25).testBit gen.2 then chk' ^^^ gen.1 else chk')
    ((chk &&& 0x1ffffff) <<< 5 ^^^ value)

def polymod (values : List Nat) : Nat := values.foldl polymodStep 1

/-- The output key in groups of five bits, the last one filled up with zeros. -/
def groups (key : BitVec 256) : Nat := key.toNat * 16

/-- Over the prefix `bc`, the witness version and the groups. -/
def checksum (key : BitVec 256) : Nat :=
  polymod ([3, 3, 0, 2, 3] ++ 1 :: digits 32 52 (groups key) ++ List.replicate 6 0) ^^^ 0x2bc830a3

/-- The prefix, the separator and the witness version. -/
def hrp : Text := ['b', 'c', '1', 'p']

def text (key : BitVec 256) : Text :=
  hrp ++ (charset.write 52 (groups key) ++ charset.write 6 (checksum key))

/-- The key that the data part of a text in lower case spells, if the text is that of the key. -/
def keyOf (t : Text) : Option (BitVec 256) :=
  ((charset.number 52 ((t.drop 4).take 52)).map fun n => BitVec.ofNat 256 (n / 16)).filter
    fun key => text key = t

/-- The letters may be of either case, but all of one. -/
def fromStr (t : Text) : Option (BitVec 256) :=
  if t.all (fun c => !c.isUpper) || t.all (fun c => !c.isLower) then keyOf (lowered t) else none

theorem keyOf_text (key : BitVec 256) : keyOf (text key) = some key := by
  have hlt : groups key < 32 ^ 52 := by
    have hkey := key.isLt
    unfold groups
    omega
  have hdata : ((text key).drop 4).take 52 = charset.write 52 (groups key) := by
    have hhrp : hrp.length = 4 := rfl
    rw [text, List.drop_left' hhrp, List.take_left' (charset.length_write (by decide) 52 _)]
  have hback : BitVec.ofNat 256 (groups key / 16) = key := by
    rw [groups, Nat.mul_div_cancel _ (by decide), BitVec.ofNat_toNat, BitVec.setWidth_eq]
  rw [keyOf, hdata, charset.number_write (by decide) hlt, Option.map_some, hback,
    Option.filter_some, if_pos (decide_eq_true rfl)]

theorem mem_text {key : BitVec 256} {c : Char} (h : c ∈ text key) : c ∈ hrp ++ charset.symbols := by
  rcases List.mem_append.mp h with hhrp | hdata
  · exact List.mem_append_left _ hhrp
  · rcases List.mem_append.mp hdata with hkey | hsum
    · exact List.mem_append_right _ (Alphabet.mem_of_mem_spell hkey)
    · exact List.mem_append_right _ (Alphabet.mem_of_mem_spell hsum)

theorem fromStr_text (key : BitVec 256) : fromStr (text key) = some key := by
  have hsymbols : (hrp ++ charset.symbols).all isLowered = true := by decide
  have hlower : ∀ c ∈ text key, isLowered c = true := fun c hc =>
    List.all_eq_true.mp hsymbols c (mem_text hc)
  have hcase : (text key).all (fun c => !c.isUpper) = true :=
    List.all_eq_true.mpr fun c hc => ((Bool.and_eq_true _ _).mp (hlower c hc)).2
  rw [fromStr, hcase, Bool.true_or, if_pos rfl, lowered_eq hlower, keyOf_text]

/-- The address of the key that is the generator of the curve. -/
example : String.ofList (text
    0x79be667ef9dcbbac55a06295ce870b07029bfcdb2dce28d959f2815b16f81798#256) =
    "bc1p0xlxvlhemja6c4dqv22uapctqupfhlxm9h8z3k2e72q4k9hcz7vqzk5jj0" := by decide +kernel

example : fromStr "BC1P0XLXVLHEMJA6C4DQV22UAPCTQUPFHLXM9H8Z3K2E72Q4K9HCZ7VQZK5JJ0".toList =
    some 0x79be667ef9dcbbac55a06295ce870b07029bfcdb2dce28d959f2815b16f81798#256 := by
  decide +kernel

end Bech32m

/-- A taproot address of the main network. -/
def taprootForm : TextForm (BitVec 256) := ⟨Bech32m.text, Bech32m.fromStr, Bech32m.fromStr_text⟩

def TextForms.mainnet : TextForms where
  hash := hexForm.map BlockHash.mk BlockHash.bytes fun _ => rfl
  txid := hexForm.map Txid.mk Txid.bytes fun _ => rfl
  address := taprootForm.map Address.mk Address.outputKey fun _ => rfl
  txid_length := fun t => by
    simp only [TextForm.map, hexForm]
    exact hexadecimal.length_write (by decide) 64 _

end BtcIndexer
