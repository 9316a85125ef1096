/-
The keystream of an encrypted disk. `crypto_xor_sector` is counter mode through the whole disk
(`cryptoXorSector_eq`); with the kernel's own AES the counter blocks of a disk are all different, and so
are the keystream blocks.
-/
import SpectreOS.Lib.Ctr
import SpectreOS.Crypto.Aes
import SpectreOS.Crypto.Sha256
import SpectreOS.Disk.Blockdev

namespace SpectreOS

open BlockIO

/-- The functions of aes256.c and sha256.c, with what the memory they set up holds before. -/
def kernelPrimitives (rk : RoundKeys) (stack : Sha256Ctx) : Primitives where
  aes256 key := aes256EncryptBlock (aes256Init rk key)
  sha256 data := fun i => ((sha256 stack data (BitVec.ofNat 32 data.length)).getD []).getD i 0

/-- Block `block` of the keystream of a sector. -/
def keystreamBlock (cp : Primitives) (slot : CryptoSlot) (lba block : Nat) : Block 16 :=
  fun i => (keystream cp slot lba).slice (block * 16) i

/-- The places of the blocks of a disk: sector addresses and blocks in a sector. -/
def blockPlaces : Set (Nat × Nat) := {p | p.1 < 2 ^ 32 ∧ p.2 < 32}

/-- The keystream is the counter block, encrypted. -/
theorem keystreamBlock_eq (cp : Primitives) (slot : CryptoSlot) (lba : Nat) {block : Nat} (hb : block < 32) :
    keystreamBlock cp slot lba block = cp.aes256 slot.key (counterBlock slot.nonce lba block) := by
  funext i
  have hlt : block * 16 + i.val < 512 := by omega
  rw [keystreamBlock, Block.slice_apply _ hlt]
  simp only [keystream, show (block * 16 + i.val) / 16 = block by omega,
    show (block * 16 + i.val) % 16 = i.val by omega]

/-- The counter block of the code is that of counter mode. -/
theorem counterBlock_eq (nonce : Block 8) (lba block : Nat) :
    counterBlock nonce lba block = Ctr.counterBlock nonce 8 (lba * 32 + block) := by
  funext i
  rw [counterBlock, Ctr.counterBlock]
  split
  · rename_i hi
    exact (Fin.append_left nonce (Ctr.bigEndian 8 _) ⟨i, hi⟩).symm
  · rename_i hi
    obtain ⟨j, rfl⟩ : ∃ j : Fin 8, i = Fin.natAdd 8 j := ⟨⟨i - 8, by omega⟩, Fin.ext (by simp; omega)⟩
    rw [Fin.append_right, Ctr.bigEndian_apply, Fin.val_natAdd, Nat.add_sub_cancel_left]

/-- Through the sectors of a disk the keystream is that of counter mode, byte after byte. -/
theorem keystream_eq (cp : Primitives) (slot : CryptoSlot) (lba : Nat) (i : Fin 512) :
    keystream cp slot lba i = Ctr.keystream 8 (cp.aes256 slot.key) slot.nonce (lba * 512 + i) := by
  have hblock : lba * 32 + i / 16 = (lba * 512 + i) / 16 := by omega
  have hbyte : (⟨i % 16, Nat.mod_lt _ (by omega)⟩ : Fin 16) = ⟨(lba * 512 + i) % 16, Nat.mod_lt _ (by omega)⟩ :=
    Fin.ext (show i.val % 16 = (lba * 512 + i) % 16 by omega)
  rw [keystream, counterBlock_eq, hblock, hbyte]
  rfl

/-- `crypto_xor_sector` is counter mode. -/
theorem cryptoXorSector_eq (cp : Primitives) (slot : CryptoSlot) (lba : Nat) (s : Sector) (i : Fin 512) :
    cryptoXorSector cp slot lba s i = s i ^^^ Ctr.keystream 8 (cp.aes256 slot.key) slot.nonce (lba * 512 + i) := by
  rw [cryptoXorSector, keystream_eq]

theorem counterBlock_injOn (nonce : Block 8) :
    Set.InjOn (fun p : Nat × Nat => counterBlock nonce p.1 p.2) blockPlaces := by
  rintro ⟨lba, block⟩ ⟨h1, h2⟩ ⟨lba', block'⟩ ⟨h1', h2'⟩ h
  simp only at h1 h2 h1' h2'
  simp only [counterBlock_eq] at h
  have hc := Ctr.counterBlock_injOn nonce 8 (show lba * 32 + block < 256 ^ 8 by omega)
    (show lba' * 32 + block' < 256 ^ 8 by omega) h
  rw [Prod.mk.injEq]
  omega

/-- No counter block and no keystream block is used twice on a disk, whatever key and nonce it has; the
cipher is injective under any round keys. -/
theorem keystream_distinct (rk : RoundKeys) (stack : Sha256Ctx) (slot : CryptoSlot) :
    Set.InjOn (fun p : Nat × Nat => counterBlock slot.nonce p.1 p.2) blockPlaces ∧
      (∀ roundKeys, Function.Injective (aes256EncryptBlock roundKeys)) ∧
      Set.InjOn (fun p : Nat × Nat => keystreamBlock (kernelPrimitives rk stack) slot p.1 p.2) blockPlaces := by
  refine ⟨counterBlock_injOn slot.nonce, aes256EncryptBlock_injective, ?_⟩
  intro p hp q hq h
  apply counterBlock_injOn slot.nonce hp hq
  apply aes256EncryptBlock_injective (aes256Init rk slot.key)
  simp only [keystreamBlock_eq _ _ _ hp.2, keystreamBlock_eq _ _ _ hq.2] at h
  exact h

end SpectreOS
