import Dpid.Primality
/-!
# P25519 — the two primes of curve25519

The field of the curve has `2 ^ 255 - 19` elements, and the scalars are the integers modulo the order of the base point.
Both are primes by a chain of Lucas tests.
-/
namespace Dpid
namespace Curve25519

def p25519 : Nat := 2 ^ 255 - 19

/-- The order of the base point. -/
def groupOrder : Nat := 2 ^ 252 + 27742317777372353535851937790883648493

/-- The integers modulo `p25519`. -/
abbrev Fp := ZMod p25519

/-- The integers modulo the order. -/
abbrev Fl := ZMod groupOrder

def p25519Steps : List Primality.Step :=
  [⟨2, 1, []⟩, ⟨3, 2, [2]⟩, ⟨17, 3, [2, 2, 2, 2]⟩, ⟨7, 3, [2, 3]⟩, ⟨239, 7, [2, 7, 17]⟩, ⟨479, 13, [2, 239]⟩,
   ⟨32573, 2, [2, 2, 17, 479]⟩, ⟨65147, 2, [2, 32573]⟩, ⟨5, 2, [2, 2]⟩, ⟨11, 2, [2, 5]⟩,
   ⟨353, 3, [2, 2, 2, 2, 2, 11]⟩, ⟨29, 2, [2, 2, 7]⟩, ⟨59, 2, [2, 29]⟩, ⟨487, 3, [2, 3, 3, 3, 3, 3]⟩,
   ⟨57467, 2, [2, 59, 487]⟩, ⟨13, 2, [2, 2, 3]⟩, ⟨131, 2, [2, 5, 13]⟩, ⟨132049, 26, [2, 2, 2, 2, 3, 3, 7, 131]⟩,
   ⟨43, 3, [2, 3, 7]⟩, ⟨23, 5, [2, 11]⟩, ⟨3727, 3, [2, 3, 3, 3, 3, 23]⟩, ⟨1923133, 2, [2, 2, 3, 43, 3727]⟩,
   ⟨31, 3, [2, 3, 5]⟩, ⟨53, 2, [2, 2, 13]⟩, ⟨107, 2, [2, 53]⟩, ⟨37, 2, [2, 2, 3, 3]⟩, ⟨223, 3, [2, 3, 37]⟩,
   ⟨173, 2, [2, 2, 43]⟩, ⟨4153, 5, [2, 2, 2, 3, 173]⟩, ⟨41, 6, [2, 2, 2, 5]⟩, ⟨1723, 3, [2, 3, 7, 41]⟩,
   ⟨430751, 17, [2, 5, 5, 5, 1723]⟩, ⟨31757755568855353, 10, [2, 2, 2, 3, 31, 107, 223, 4153, 430751]⟩,
   ⟨19, 2, [2, 3, 3]⟩, ⟨83, 2, [2, 41]⟩, ⟨9463, 3, [2, 3, 19, 83]⟩, ⟨37853, 2, [2, 2, 9463]⟩, ⟨75707, 2, [2, 37853]⟩,
   ⟨2437, 2, [2, 2, 3, 7, 29]⟩, ⟨97, 5, [2, 2, 2, 2, 2, 3]⟩, ⟨419, 2, [2, 11, 19]⟩, ⟨569003, 2, [2, 7, 97, 419]⟩,
   ⟨2773320623, 5, [2, 2437, 569003]⟩, ⟨72106336199, 7, [2, 13, 2773320623]⟩, ⟨47, 5, [2, 23]⟩,
   ⟨127, 3, [2, 3, 3, 7]⟩, ⟨103, 5, [2, 3, 17]⟩, ⟨991, 6, [2, 3, 3, 5, 11]⟩, ⟨8574133, 2, [2, 2, 3, 7, 103, 991]⟩,
   ⟨1919519569386763, 2, [2, 3, 7, 19, 47, 47, 127, 8574133]⟩,
   ⟨75445702479781427272750846543864801, 7, [2, 2, 2, 2, 2, 3, 3, 5, 5, 75707, 72106336199, 1919519569386763]⟩,
   ⟨74058212732561358302231226437062788676166966415465897661863160754340907, 2, [2, 3, 353, 57467, 132049, 1923133,
     31757755568855353, 75445702479781427272750846543864801]⟩,
   ⟨p25519, 2, [2, 2, 3, 65147, 74058212732561358302231226437062788676166966415465897661863160754340907]⟩]

def groupOrderSteps : List Primality.Step :=
  [⟨2, 1, []⟩, ⟨3, 2, [2]⟩, ⟨5, 2, [2, 2]⟩, ⟨11, 2, [2, 5]⟩, ⟨23, 5, [2, 11]⟩, ⟨47, 5, [2, 23]⟩,
   ⟨34123, 2, [2, 3, 11, 11, 47]⟩, ⟨409477, 2, [2, 2, 3, 34123]⟩, ⟨14741173, 2, [2, 2, 3, 3, 409477]⟩,
   ⟨58964693, 2, [2, 2, 14741173]⟩, ⟨7, 3, [2, 3]⟩, ⟨17, 3, [2, 2, 2, 2]⟩, ⟨43, 3, [2, 3, 7]⟩,
   ⟨30703, 3, [2, 3, 7, 17, 43]⟩, ⟨13, 2, [2, 2, 3]⟩, ⟨79, 3, [2, 3, 13]⟩, ⟨41081, 3, [2, 2, 2, 5, 13, 79]⟩,
   ⟨82163, 2, [2, 41081]⟩, ⟨67, 2, [2, 3, 11]⟩, ⟨22111, 6, [2, 3, 5, 11, 67]⟩, ⟨132667, 5, [2, 3, 22111]⟩,
   ⟨41, 6, [2, 2, 2, 5]⟩, ⟨1723, 3, [2, 3, 7, 41]⟩, ⟨17231, 13, [2, 5, 1723]⟩, ⟨137849, 3, [2, 2, 2, 17231]⟩,
   ⟨3044861653679985063343, 5, [2, 3, 11, 30703, 82163, 132667, 137849]⟩,
   ⟨198211423230930754013084525763697, 5, [2, 2, 2, 2, 3, 23, 58964693, 3044861653679985063343]⟩,
   ⟨269, 2, [2, 2, 67]⟩, ⟨73, 5, [2, 2, 2, 3, 3]⟩, ⟨307, 5, [2, 3, 3, 17]⟩, ⟨113, 3, [2, 2, 2, 2, 7]⟩,
   ⟨2939, 2, [2, 13, 113]⟩, ⟨5879, 11, [2, 2939]⟩, ⟨292386187, 2, [2, 3, 3, 3, 3, 307, 5879]⟩,
   ⟨213441916511, 13, [2, 5, 73, 292386187]⟩, ⟨1361, 3, [2, 2, 2, 2, 5, 17]⟩, ⟨19, 2, [2, 3, 3]⟩,
   ⟨2851, 2, [2, 3, 5, 5, 19]⟩, ⟨3797, 2, [2, 2, 13, 73]⟩, ⟨531581, 2, [2, 2, 5, 7, 3797]⟩,
   ⟨2551, 6, [2, 3, 5, 5, 17]⟩, ⟨1224481, 13, [2, 2, 2, 2, 2, 3, 5, 2551]⟩,
   ⟨1257559732178653, 2, [2, 2, 3, 7, 23, 531581, 1224481]⟩,
   ⟨4434155615661930479, 17, [2, 41, 43, 1257559732178653]⟩,
   ⟨172054593956031949258510691, 2, [2, 5, 1361, 2851, 4434155615661930479]⟩,
   ⟨19757330305831588566944191468367130476339, 2, [2, 269, 213441916511, 172054593956031949258510691]⟩,
   ⟨276602624281642239937218680557139826668747, 2, [2, 7, 19757330305831588566944191468367130476339]⟩,
   ⟨groupOrder, 2, [2, 2, 3, 11, 198211423230930754013084525763697, 276602624281642239937218680557139826668747]⟩]

set_option maxRecDepth 4000 in
theorem p25519Steps_pass : Primality.chain [] p25519Steps = true := by decide +kernel

set_option maxRecDepth 4000 in
theorem groupOrderSteps_pass : Primality.chain [] groupOrderSteps = true := by decide +kernel

theorem p25519_prime : p25519.Prime :=
  Primality.prime_of_chain p25519Steps (fun _ h => absurd h List.not_mem_nil) p25519Steps_pass
    ⟨p25519, 2, _⟩ (List.getLast_mem (l := p25519Steps) (by decide))

theorem groupOrder_prime : groupOrder.Prime :=
  Primality.prime_of_chain groupOrderSteps (fun _ h => absurd h List.not_mem_nil) groupOrderSteps_pass
    ⟨groupOrder, 2, _⟩ (List.getLast_mem (l := groupOrderSteps) (by decide))

instance : Fact p25519.Prime := ⟨p25519_prime⟩

instance : Fact groupOrder.Prime := ⟨groupOrder_prime⟩

end Curve25519
end Dpid
