import Mathlib.Data.List.Nodup

/-!
# Authenticated encryption

A cipher with associated data as a pair of functions, and the ideal opening
function of such a cipher: one that accepts exactly the ciphertexts somebody who
holds the key has produced.
-/

namespace AuraLite.Aead

variable {Key Nonce : Type}

/-- Opening takes a key, a nonce, associated data and a ciphertext with its tag. -/
abbrev Opener (Key Nonce : Type) :=
  Key → Nonce → List UInt8 → List UInt8 → Option (List UInt8)

/-- A cipher whose ciphertexts carry a tag of `overhead` bytes. -/
structure Cipher (Key Nonce : Type) (overhead : ℕ) where
  protect : Key → Nonce → List UInt8 → List UInt8 → List UInt8
  unprotect : Opener Key Nonce
  unprotect_protect : ∀ key nonce aad plain,
    unprotect key nonce aad (protect key nonce aad plain) = some plain
  length_protect : ∀ key nonce aad plain,
    (protect key nonce aad plain).length = plain.length + overhead

/-- One sealed message, with everything that went into it. -/
structure Sealed (Key Nonce : Type) where
  key : Key
  nonce : Nonce
  aad : List UInt8
  cipher : List UInt8
  plain : List UInt8

/-- The ideal opening function: it accepts what is in the log and nothing else. -/
def Ideal (opens : Opener Key Nonce) (log : List (Sealed Key Nonce)) : Prop :=
  ∀ key nonce aad cipher plain,
    opens key nonce aad cipher = some plain ↔ ⟨key, nonce, aad, cipher, plain⟩ ∈ log

/-- Opening by looking a ciphertext up in the log. -/
def openLog [DecidableEq Key] [DecidableEq Nonce] (log : List (Sealed Key Nonce)) :
    Opener Key Nonce := fun key nonce aad cipher =>
  (log.find? fun entry => decide (entry.key = key ∧ entry.nonce = nonce ∧
    entry.aad = aad ∧ entry.cipher = cipher)).map Sealed.plain

/-- A log that never uses a nonce twice has an ideal opening function. -/
theorem ideal_openLog [DecidableEq Key] [DecidableEq Nonce] {log : List (Sealed Key Nonce)}
    (hfresh : (log.map Sealed.nonce).Nodup) : Ideal (openLog log) log := by
  intro key nonce aad cipher plain
  constructor
  · intro hopen
    obtain ⟨entry, hfind, hplain⟩ := Option.map_eq_some_iff.mp hopen
    have hmem := List.mem_of_find?_eq_some hfind
    have hfound := List.find?_some hfind
    have hmatch := of_decide_eq_true hfound
    obtain ⟨rfl, rfl, rfl, rfl⟩ := hmatch
    rwa [← hplain]
  · intro hmem
    -- The entry that is found has the nonce of the entry in the log, so it is that entry.
    have hsome : (log.find? fun entry => decide (entry.key = key ∧ entry.nonce = nonce ∧
        entry.aad = aad ∧ entry.cipher = cipher)).isSome = true := by
      rw [List.find?_isSome]
      exact ⟨_, hmem, by simp⟩
    obtain ⟨entry, hfind⟩ := Option.isSome_iff_exists.mp hsome
    have hfound := List.find?_some hfind
    have hmatch := of_decide_eq_true hfound
    have hsame : entry = ⟨key, nonce, aad, cipher, plain⟩ :=
      List.inj_on_of_nodup_map hfresh (List.mem_of_find?_eq_some hfind) hmem hmatch.2.1
    rw [openLog, hfind, Option.map_some, hsame]

end AuraLite.Aead
