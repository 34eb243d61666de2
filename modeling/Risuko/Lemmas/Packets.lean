import Mathlib.Tactic
import Risuko.Usenet.Packets

/-!
# Packets, one after the other

What both loops read off a packet, and what they make of a file that is a row of packets.
-/

namespace Risuko

namespace Usenet

/-! ## Little-endian numbers -/

@[simp] theorem length_toLe (k n : ℕ) : (toLe k n).length = k := by
  induction k generalizing n with
  | zero => rfl
  | succ k ih => rw [toLe, List.length_cons, ih]

theorem fromLe_toLe {k n : ℕ} (h : n < 256 ^ k) : fromLe (toLe k n) = n := by
  induction k generalizing n with
  | zero => exact (Nat.lt_one_iff.mp h).symm
  | succ k ih =>
    have hrest : n / 256 < 256 ^ k := by
      rw [Nat.div_lt_iff_lt_mul (by decide), ← pow_succ]
      exact h
    have hcons : fromLe (toLe (k + 1) n) = (UInt8.ofNat n).toNat + 256 * fromLe (toLe k (n / 256)) := rfl
    rw [hcons, ih hrest, UInt8.toNat_ofNat', Nat.mod_add_div]

/-! ## Packets -/

namespace Packet

variable {md5 : List UInt8 → List UInt8} {p : Packet}

theorem length_magic : par2Magic.length = 8 := by
  decide

theorem length_content (h : p.Sized) : p.content.length = 32 + p.body.length := by
  simp only [content, List.length_append, h.setId, h.kind]
  omega

theorem length_encode (h : p.Sized) (hmd5 : ∀ x, (md5 x).length = 16) : (p.encode md5).length = p.length := by
  simp only [encode, List.length_append, length_magic, length_toLe, hmd5, length_content h, length, par2HeaderBytes]
  omega

/-- What is read of the header of a packet, whatever follows it. -/
theorem read_header (h : p.Sized) (rest : List UInt8) :
    (p.encode md5 ++ rest).take 8 = par2Magic ∧ fromLe (((p.encode md5 ++ rest).drop 8).take 8) = p.length := by
  have hbytes : p.encode md5 ++ rest = par2Magic ++ (toLe 8 p.length ++ (md5 p.content ++ p.content ++ rest)) := by
    simp only [encode, List.append_assoc]
  rw [hbytes, List.take_left' length_magic, List.drop_left' length_magic, List.take_left' (length_toLe ..)]
  exact ⟨rfl, fromLe_toLe h.length⟩

/-- What is read behind the header. -/
theorem read_content (h : p.Sized) (hmd5 : ∀ x, (md5 x).length = 16) (rest : List UInt8) :
    (p.encode md5 ++ rest).drop 32 = p.content ++ rest ∧ ((p.encode md5 ++ rest).drop 32).take 16 = p.setId ∧
      ((p.encode md5 ++ rest).drop 48).take 16 = p.kind ∧ (p.encode md5 ++ rest).drop par2HeaderBytes = p.body ++ rest := by
  have h32 : (par2Magic ++ (toLe 8 p.length ++ md5 p.content)).length = 32 := by
    simp only [List.length_append, length_magic, length_toLe, hmd5]
  have hbytes : p.encode md5 ++ rest = (par2Magic ++ (toLe 8 p.length ++ md5 p.content)) ++ (p.setId ++ (p.kind ++ (p.body ++ rest))) := by
    simp only [encode, content, List.append_assoc]
  have hcontent : p.content ++ rest = p.setId ++ (p.kind ++ (p.body ++ rest)) := by
    simp only [content, List.append_assoc]
  have h48 : (p.encode md5 ++ rest).drop 48 = p.kind ++ (p.body ++ rest) := by
    rw [hbytes, show 48 = 32 + 16 by rfl, ← List.drop_drop, List.drop_left' h32, List.drop_left' h.setId]
  have h64 : (p.encode md5 ++ rest).drop 64 = p.body ++ rest := by
    rw [show 64 = 48 + 16 by rfl, ← List.drop_drop, h48, List.drop_left' h.kind]
  rw [h48]
  refine ⟨?_, ?_, List.take_left' h.kind, h64⟩
  · rw [hcontent, hbytes, List.drop_left' h32]
  · rw [hbytes, List.drop_left' h32, List.take_left' h.setId]

/-- The MD5 of a packet. -/
theorem read_md5 (hmd5 : ∀ x, (md5 x).length = 16) : ((p.encode md5).drop 16).take 16 = md5 p.content := by
  have h16 : (par2Magic ++ toLe 8 p.length).length = 16 := by
    simp only [List.length_append, length_magic, length_toLe]
  have hbytes : p.encode md5 = (par2Magic ++ toLe 8 p.length) ++ (md5 p.content ++ p.content) := by
    simp only [encode, List.append_assoc]
  rw [hbytes, List.drop_left' h16, List.take_left' (hmd5 _)]

end Packet

/-! ## Counting -/

variable {md5 : List UInt8 → List UInt8} {path : String} {metadataLimit : ℕ} {p : Packet} {stats stats' : ParityFileStats}

theorem checkedAdd_ok {a b : ℕ} {message : String} (h : a + b < 2 ^ 64) : checkedAdd a b message = .ok (a + b) := if_pos h

/-- A packet that passes the checks is counted. -/
theorem countPacket_ok {sliceSize : ℕ} (h : p.WellFormed sliceSize) (horder : p.kind = par2TypeMain → p.body.length = 12 + p.sourceFiles * 16)
    (hlimit : metadataLimit < 2 ^ 64)
    (hwithin : (stats.add p).Within metadataLimit) :
    countPacket path metadataLimit p.kind p.body stats = .ok { stats.add p with packets := stats.packets } := by
  obtain ⟨hpackets, hblocks, hmetadata, hfiles, hsource⟩ := hwithin
  simp only [ParityFileStats.add] at hpackets hblocks hmetadata hfiles hsource
  have hlength : p.body.length + par2HeaderBytes = p.length := Nat.add_comm ..
  unfold countPacket
  dsimp only
  rw [hlength]
  by_cases hrecovery : p.kind = par2TypeRecovery
  · have hbody := h.recovery hrecovery
    rw [if_pos hrecovery] at hblocks
    have hdesc : ¬ par2TypeRecovery = par2TypeFileDesc := by
      decide
    have hifsc : ¬ par2TypeRecovery = par2TypeIfsc := by
      decide
    rw [if_pos hrecovery, if_neg (by omega), checkedAdd_ok ((hblocks.trans hpackets).trans_lt (by decide))]
    simp [ParityFileStats.add, hrecovery, hdesc, hifsc]
  · have hmeta := h.metadata hrecovery
    rw [if_neg hrecovery] at hmetadata
    rw [if_neg hrecovery, if_neg (not_lt.mpr hmeta), checkedAdd_ok (by omega)]
    show (if metadataLimit < stats.metadataBytes + p.length then _ else _) = _
    rw [if_neg (not_lt.mpr hmetadata)]
    by_cases hdesc : p.kind = par2TypeFileDesc
    · have hifsc : ¬ par2TypeFileDesc = par2TypeIfsc := by
        decide
      have hother : ¬ par2TypeFileDesc = par2TypeRecovery := by
        decide
      rw [if_pos hdesc] at hfiles
      rw [if_pos hdesc, if_neg (not_lt.mpr (h.fileDesc hdesc)), checkedAdd_ok (hfiles.trans_lt (by decide))]
      show (if maxPar2SourceFiles < stats.sourceFileDescriptors + 1 then _ else _) = _
      rw [if_neg (not_lt.mpr hfiles)]
      simp [ParityFileStats.add, hdesc, hifsc, hother]
      rfl
    · rw [if_neg hdesc]
      by_cases hifsc : p.kind = par2TypeIfsc
      · obtain ⟨hlong, hmod⟩ := h.ifsc hifsc
        have hother : ¬ par2TypeIfsc = par2TypeRecovery := by
          decide
        have hother' : ¬ par2TypeIfsc = par2TypeFileDesc := by
          decide
        rw [if_pos hifsc] at hsource
        rw [if_pos hifsc, if_neg (not_or.mpr ⟨not_lt.mpr hlong, not_not.mpr hmod⟩), checkedAdd_ok (hsource.trans_lt (by decide))]
        show (if maxPar2SourceBlocks < stats.sourceBlocks + (p.body.length - 16) / 20 then _ else _) = _
        rw [if_neg (not_lt.mpr hsource)]
        simp [ParityFileStats.add, hifsc, hother, hother']
        rfl
      · rw [if_neg hifsc]
        by_cases hmain : p.kind = par2TypeMain
        · obtain ⟨hlong, -, hcount⟩ := h.main hmain
          have hexact := horder hmain
          rw [Packet.sourceFiles] at hcount hexact
          rw [if_pos hmain, if_neg (not_lt.mpr (le_of_add_le_left hlong)), if_neg (not_or.mpr ⟨not_lt.mpr hcount, not_not.mpr hexact⟩)]
          simp [ParityFileStats.add, hrecovery, hdesc, hifsc]
          rfl
        · rw [if_neg hmain]
          simp [ParityFileStats.add, hrecovery, hdesc, hifsc]
          rfl

/-- What follows a sum that does not overflow. -/
theorem of_checkedAdd {a b : ℕ} {message : String} {f : ℕ → Except Par2Error ParityFileStats} (h : (checkedAdd a b message >>= f) = .ok stats') :
    f (a + b) = .ok stats' := by
  unfold checkedAdd at h
  split at h
  · exact h
  · cases h

/-- A main packet that is counted lists the files of the recovery set and no other. -/
theorem countPacket_main {body : List UInt8} (h : countPacket path metadataLimit par2TypeMain body stats = .ok stats') :
    body.length = 12 + fromLe ((body.drop 8).take 4) * 16 := by
  unfold countPacket at h
  dsimp only at h
  rw [if_neg (by decide)] at h
  split at h
  · cases h
  have h := of_checkedAdd h
  split at h
  · cases h
  rw [if_neg (by decide), if_neg (by decide), if_pos rfl] at h
  split at h
  · cases h
  split at h
  · cases h
  · rename_i horder
    exact not_not.mp (not_or.mp horder).2

theorem countPacket_packets {kind body : List UInt8} (h : countPacket path metadataLimit kind body stats = .ok stats') :
    stats'.packets = stats.packets ∧ (kind = par2TypeRecovery → 4 ≤ body.length) := by
  unfold countPacket at h
  dsimp only at h
  split at h
  · split at h
    · cases h
    · rename_i hlong
      have h := of_checkedAdd h
      cases h
      exact ⟨rfl, fun _ => not_lt.mp hlong⟩
  · rename_i hother
    refine ⟨?_, fun heq => absurd heq hother⟩
    split at h
    · cases h
    have h := of_checkedAdd h
    split at h
    · cases h
    split at h
    · split at h
      · cases h
      have h := of_checkedAdd h
      split at h
      · cases h
      · cases h
        rfl
    · split at h
      · split at h
        · cases h
        have h := of_checkedAdd h
        split at h
        · cases h
        · cases h
          rfl
      · split at h
        · split at h
          · cases h
          split at h
          · cases h
          · cases h
            rfl
        · cases h
          rfl

/-! ## The loops -/

/-- Whether both loops take what is left of the file for a packet of this length first. -/
structure PacketAt (rest : List UInt8) (n : ℕ) : Prop where
  header : par2HeaderBytes ≤ n
  magic : rest.take 8 = par2Magic
  length : fromLe ((rest.drop 8).take 8) = n
  aligned : n % 4 = 0
  inside : n ≤ rest.length
  recovery : (rest.drop 48).take 16 = par2TypeRecovery → par2HeaderBytes + 4 ≤ n

variable {rest : List UInt8} {recoverySetId : Option (List UInt8)} {starts : List ℕ} {position : ℕ} {result : ParityFileStats × List ℕ}

/-- What an iteration of `validate_par2_packets` has found, when the file is accepted. -/
theorem validateLoop_cases (h : validateLoop md5 path metadataLimit position rest recoverySetId stats starts = .ok result) :
    (rest = [] ∧ result = (stats, starts)) ∨
    ∃ n id stats', PacketAt rest n ∧ n ≤ maxPar2SliceBytes + par2HeaderBytes ∧ stats'.packets = stats.packets + 1 ∧ stats'.packets ≤ maxPar2PacketCount ∧
      (((rest.take n).drop 48).take 16 = par2TypeMain →
        ((rest.take n).drop par2HeaderBytes).length = 12 + fromLe ((((rest.take n).drop par2HeaderBytes).drop 8).take 4) * 16) ∧
      validateLoop md5 path metadataLimit (position + n) (rest.drop n) id stats' (starts ++ [position]) = .ok result := by
  rw [validateLoop] at h
  split at h
  · rename_i hnil
    cases h
    exact Or.inl ⟨hnil, rfl⟩
  · split at h
    · cases h
    dsimp only at h
    split at h
    · cases h
    rename_i hok
    push Not at hok
    obtain ⟨hmagic, hheader, haligned, hinside, hbounded⟩ := hok
    split at h
    · cases h
    split at h
    · cases h
    rename_i stats' hcount
    split at h
    · cases h
    split at h
    · cases h
    · rename_i hlimit
      obtain ⟨hpackets, hbody⟩ := countPacket_packets hcount
      refine Or.inr ⟨_, _, _, ⟨hheader, hmagic, rfl, haligned, hinside, fun hkind => ?_⟩, hbounded, ?_, not_lt.mp hlimit,
        fun hmain => countPacket_main (hmain ▸ hcount), h⟩
      · have hkind' : ((rest.take (fromLe ((rest.drop 8).take 8))).drop 48).take 16 = par2TypeRecovery := by
          rw [List.drop_take, List.take_take, min_eq_left]
          · exact hkind
          · unfold par2HeaderBytes at hheader
            omega
        have hlong := hbody hkind'
        rw [List.length_drop, List.length_take, min_eq_left hinside] at hlong
        omega
      · show _ + 1 = _ + 1
        rw [hpackets]

/-- An accepted file is not long. -/
theorem length_of_validateLoop (h : validateLoop md5 path metadataLimit position rest recoverySetId stats starts = .ok result) :
    rest.length ≤ (maxPar2PacketCount - stats.packets) * (maxPar2SliceBytes + par2HeaderBytes) := by
  induction hn : rest.length using Nat.strong_induction_on generalizing rest recoverySetId starts position stats with
  | _ k ih =>
    rcases validateLoop_cases h with ⟨rfl, -⟩ | ⟨n, id, stats', hat, hbounded, hpackets, hle, -, hrest⟩
    · rw [← hn]
      exact Nat.zero_le _
    · have hpos : 0 < n := lt_of_lt_of_le (by decide) hat.header
      have hinside := hat.inside
      have hlength : (rest.drop n).length = rest.length - n := List.length_drop
      have hbound := ih (rest.drop n).length (by omega) hrest rfl
      have hstep : maxPar2PacketCount - stats.packets = (maxPar2PacketCount - stats'.packets) + 1 := by
        omega
      rw [hstep, Nat.succ_mul]
      omega

variable {setId : List UInt8} {sliceSize pathIndex fileSize : ℕ} {index : RecoveryIndex}

/-- What `index_recovery_packets` makes of a packet that the other loop has accepted. -/
theorem indexLoop_packet {n : ℕ} (h : PacketAt rest n) (hsize : fileSize = position + rest.length) (hsmall : fileSize < 2 ^ 63) :
    indexLoop setId sliceSize pathIndex fileSize position rest index starts =
      indexLoop setId sliceSize pathIndex fileSize (position + n) (rest.drop n)
        (if (rest.drop 32).take 16 = setId ∧ (rest.drop 48).take 16 = par2TypeRecovery ∧ 4 + sliceSize ≤ n - par2HeaderBytes then
          index.orInsert (fromLe ((rest.drop par2HeaderBytes).take 4)) (pathIndex, position + par2HeaderBytes + 4)
        else index) (starts ++ [position]) := by
  obtain ⟨hheader, hmagic, hlength, haligned, hinside, hrecovery⟩ := h
  have hshort : par2HeaderBytes ≤ rest.length := hheader.trans hinside
  have hnowrap : (position + par2HeaderBytes) % 2 ^ 64 = position + par2HeaderBytes := by
    unfold par2HeaderBytes at hshort ⊢
    omega
  have hnext : min (position + n) (2 ^ 64 - 1) = position + n := by
    omega
  have hbad : ¬ (rest.take 8 ≠ par2Magic ∨ n < par2HeaderBytes ∨ n % 4 ≠ 0) := by
    push Not
    exact ⟨hmagic, hheader, haligned⟩
  conv_lhs => rw [indexLoop]
  dsimp only
  rw [hlength, hnowrap, if_neg (by omega), if_neg (by omega), if_neg (not_lt.mpr hshort), if_neg hbad, hnext]
  by_cases hother : (rest.drop 32).take 16 ≠ setId ∨ (rest.drop 48).take 16 ≠ par2TypeRecovery
  · rw [if_pos hother, if_neg]
    rintro ⟨hid, hkind, -⟩
    exact hother.elim (fun h => h hid) fun h => h hkind
  · rw [if_neg hother]
    push Not at hother
    have hfull : ((rest.drop par2HeaderBytes).take 4).length = 4 := by
      have hlong := hrecovery hother.2
      rw [List.length_take, List.length_drop]
      omega
    by_cases hlarge : 4 + sliceSize ≤ n - par2HeaderBytes
    · rw [if_pos (by omega), if_neg (by omega), if_pos ⟨hother.1, hother.2, hlarge⟩]
    · rw [if_neg (by omega), if_neg (fun h => hlarge h.2.2)]

theorem indexLoop_end (hsmall : fileSize < 2 ^ 63) :
    indexLoop setId sliceSize pathIndex fileSize fileSize [] index starts = .ok (index, starts) := by
  have hlt : fileSize < (fileSize + par2HeaderBytes) % 2 ^ 64 := by
    unfold par2HeaderBytes
    omega
  rw [indexLoop, if_pos hlt]

/-- Of an accepted file, the other loop looks for packets at the same places. -/
theorem indexLoop_of_validateLoop (h : validateLoop md5 path metadataLimit position rest recoverySetId stats starts = .ok result)
    (hsize : fileSize = position + rest.length) (hsmall : fileSize < 2 ^ 63) :
    ∃ index', indexLoop setId sliceSize pathIndex fileSize position rest index starts = .ok (index', result.2) := by
  induction hn : rest.length using Nat.strong_induction_on generalizing rest recoverySetId starts position stats index with
  | _ k ih =>
    rcases validateLoop_cases h with ⟨rfl, rfl⟩ | ⟨n, id, stats', hat, -, -, -, -, hrest⟩
    · obtain rfl : fileSize = position := hsize
      exact ⟨index, indexLoop_end hsmall⟩
    · have hpos : 0 < n := lt_of_lt_of_le (by decide) hat.header
      have hinside := hat.inside
      have hlength : (rest.drop n).length = rest.length - n := List.length_drop
      rw [indexLoop_packet hat hsize hsmall]
      exact ih (rest.drop n).length (by omega) hrest (by omega) rfl

/-! ## Rows of packets -/

theorem add_within (h : (stats.add p).Within metadataLimit) (hblocks : stats.recoveryBlocks ≤ stats.packets) :
    stats.Within metadataLimit := by
  obtain ⟨hpackets, -, hmetadata, hfiles, hsource⟩ := h
  simp only [ParityFileStats.add] at hpackets hmetadata hfiles hsource
  exact ⟨by omega, hblocks, by omega, by omega, by omega⟩

theorem recoveryBlocks_add (h : stats.recoveryBlocks ≤ stats.packets) : (stats.add p).recoveryBlocks ≤ (stats.add p).packets := by
  simp only [ParityFileStats.add]
  split <;> omega

/-- The first counts are within the limits when the last are. -/
theorem within_of_countAll {packets : List Packet} (h : (countAll packets stats).Within metadataLimit) (hblocks : stats.recoveryBlocks ≤ stats.packets) :
    stats.Within metadataLimit := by
  induction packets generalizing stats with
  | nil => exact h
  | cons p rest ih => exact add_within (ih h (recoveryBlocks_add hblocks)) hblocks

theorem packetAt_encode (h : p.WellFormed sliceSize) (hmd5 : ∀ x, (md5 x).length = 16)
    (rest : List UInt8) : PacketAt (p.encode md5 ++ rest) p.length where
  header := Nat.le_add_right _ _
  magic := (p.read_header h.sized rest).1
  length := (p.read_header h.sized rest).2
  aligned := h.aligned
  inside := by
    rw [List.length_append, Packet.length_encode h.sized hmd5]
    exact Nat.le_add_right _ _
  recovery := by
    intro hkind
    rw [(Packet.read_content h.sized hmd5 rest).2.2.1] at hkind
    have hbody := h.recovery hkind
    unfold Packet.length
    omega

/-- A packet of the format is within the limit of a packet, unless its slice is among the largest. -/
theorem bounded_iff (h : p.WellFormed sliceSize) :
    p.length ≤ maxPar2SliceBytes + par2HeaderBytes ↔ (p.kind = par2TypeRecovery → sliceSize + 4 ≤ maxPar2SliceBytes) := by
  by_cases hrecovery : p.kind = par2TypeRecovery
  · have hbody := h.recovery hrecovery
    have hlength : p.length = par2HeaderBytes + (4 + sliceSize) := by
      rw [Packet.length, hbody]
    rw [hlength]
    constructor
    · intro hle _
      omega
    · intro hle
      have hle := hle hrecovery
      omega
  · exact iff_of_true ((h.metadata hrecovery).trans (by decide)) fun heq => absurd heq hrecovery

/-- `validate_par2_packets` counts a packet of the format, and goes on behind it. -/
theorem validateLoop_packet (h : p.WellFormed sliceSize) (hmd5 : ∀ x, (md5 x).length = 16) (hlimit : metadataLimit < 2 ^ 64)
    (hchecked : p.Checked sliceSize) (hid : ∀ id ∈ recoverySetId, id = p.setId)
    (hwithin : (stats.add p).Within metadataLimit) :
    validateLoop md5 path metadataLimit position (p.encode md5 ++ rest) recoverySetId stats starts =
      validateLoop md5 path metadataLimit (position + p.length) rest (some p.setId) (stats.add p) (starts ++ [position]) := by
  obtain ⟨hheader, hmagic, hlength, haligned, hinside, -⟩ := packetAt_encode h hmd5 rest
  have hencode : (p.encode md5).length = p.length := Packet.length_encode h.sized hmd5
  have hne : p.encode md5 ++ rest ≠ [] := by
    intro hnil
    rw [hnil] at hinside
    exact absurd (hheader.trans hinside) (by decide)
  have hpacket : (p.encode md5 ++ rest).take p.length = p.encode md5 := List.take_left' hencode
  have hbad : ¬ ((p.encode md5 ++ rest).take 8 ≠ par2Magic ∨ p.length < par2HeaderBytes ∨ p.length % 4 ≠ 0 ∨ (p.encode md5 ++ rest).length < p.length ∨
      maxPar2SliceBytes + par2HeaderBytes < p.length) := by
    push Not
    exact ⟨hmagic, hheader, haligned, hinside, (bounded_iff h).mpr hchecked.slice⟩
  obtain ⟨hcontent, hset, hkind, hbody⟩ := Packet.read_content h.sized hmd5 []
  rw [List.append_nil] at hcontent hset hkind hbody
  rw [List.append_nil] at hcontent hbody
  have hsame : ¬ (recoverySetId.any (· ≠ p.setId)) = true := by
    rw [Option.any_eq_true]
    rintro ⟨id, hmem, hdiff⟩
    exact of_decide_eq_true hdiff (hid id hmem)
  rw [validateLoop, if_neg hne, if_neg (not_lt.mpr (hheader.trans hinside))]
  dsimp only
  rw [hlength, if_neg hbad, hpacket, hset, if_neg hsame, hkind, hbody, countPacket_ok h hchecked.order hlimit hwithin]
  have hcount : ¬ maxPar2PacketCount < stats.packets + 1 := not_lt.mpr hwithin.packets
  dsimp only
  rw [hcontent, Packet.read_md5 hmd5, if_neg (not_not.mpr rfl), if_neg hcount, List.drop_left' hencode]
  rfl

variable {packets : List Packet}

/-- A row of packets of the format is accepted, and every packet counted once. -/
theorem validateLoop_all (h : ∀ p ∈ packets, p.WellFormed sliceSize) (hmd5 : ∀ x, (md5 x).length = 16) (hlimit : metadataLimit < 2 ^ 64)
    (hchecked : ∀ p ∈ packets, p.Checked sliceSize) (hset : ∀ p ∈ packets, p.setId = setId)
    (hid : ∀ id ∈ recoverySetId, id = setId) (hblocks : stats.recoveryBlocks ≤ stats.packets)
    (hwithin : (countAll packets stats).Within metadataLimit) :
    ∃ starts', validateLoop md5 path metadataLimit position (encodeAll md5 packets) recoverySetId stats starts =
        .ok (countAll packets stats, starts') := by
  induction packets generalizing position recoverySetId stats starts with
  | nil => exact ⟨starts, by rw [validateLoop]; rfl⟩
  | cons p rest ih =>
    rw [List.forall_mem_cons] at h hchecked hset
    have hfirst : (stats.add p).Within metadataLimit := within_of_countAll hwithin (recoveryBlocks_add hblocks)
    have hencode : encodeAll md5 (p :: rest) = p.encode md5 ++ encodeAll md5 rest := rfl
    rw [hencode, validateLoop_packet h.1 hmd5 hlimit hchecked.1 (fun id hmem => (hid id hmem).trans hset.1.symm) hfirst]
    refine ih h.2 hchecked.2 hset.2 (fun id hmem => ?_) (recoveryBlocks_add hblocks) hwithin
    rw [← Option.mem_some.mp hmem]
    exact hset.1

/-- In an accepted row, every packet has what is asked beyond the format. -/
theorem checked_of_validateLoop (h : ∀ p ∈ packets, p.WellFormed sliceSize) (hmd5 : ∀ x, (md5 x).length = 16)
    (hok : validateLoop md5 path metadataLimit position (encodeAll md5 packets) recoverySetId stats starts = .ok result) :
    ∀ p ∈ packets, p.Checked sliceSize := by
  induction packets generalizing position recoverySetId stats starts with
  | nil => nofun
  | cons p rest ih =>
    rw [List.forall_mem_cons] at h
    have hencode : encodeAll md5 (p :: rest) = p.encode md5 ++ encodeAll md5 rest := rfl
    have hlength := Packet.length_encode h.1.sized hmd5
    rw [hencode] at hok
    rcases validateLoop_cases hok with ⟨hnil, -⟩ | ⟨n, id, stats', hat, hbounded, -, -, horder, hrest⟩
    · have hempty := (List.append_eq_nil_iff.mp hnil).1
      rw [hempty] at hlength
      exact absurd hlength (by unfold Packet.length par2HeaderBytes; rw [List.length_nil]; omega)
    · have hn : n = p.length := hat.length.symm.trans (p.read_header h.1.sized _).2
      subst hn
      obtain ⟨-, -, hkind, hbody⟩ := Packet.read_content h.1.sized hmd5 []
      rw [List.append_nil] at hkind hbody
      rw [List.append_nil] at hbody
      rw [List.drop_left' hlength] at hrest
      rw [List.take_left' hlength, hkind, hbody] at horder
      exact List.forall_mem_cons.mpr ⟨⟨(bounded_iff h.1).mp hbounded, horder⟩, ih h.2 hrest⟩

/-! ## The index -/

namespace RecoveryIndex

variable {slices slices' : ℕ → ℕ × ℕ → Prop}

theorem Exact.congr (h : index.Exact slices) (hsame : ∀ e place, slices' e place ↔ slices e place) : index.Exact slices' :=
  ⟨fun e place hsome => (hsame e place).mpr (h.sound e place hsome), fun e place hslice => h.complete e place ((hsame e place).mp hslice)⟩

/-- One more slice. -/
theorem Exact.orInsert {exponent : ℕ} {place : ℕ × ℕ} (h : index.Exact slices)
    (hone : ∀ e other, slices' e other ↔ slices e other ∨ (exponent = e ∧ other = place)) : (index.orInsert exponent place).Exact slices' := by
  constructor
  · intro e other hsome
    rw [hone]
    unfold RecoveryIndex.orInsert at hsome
    split at hsome
    · rename_i heq
      cases hfound : index e with
      | none =>
        rw [hfound] at hsome
        exact Or.inr ⟨heq.symm, (Option.some.inj hsome).symm⟩
      | some found =>
        rw [hfound] at hsome
        rw [← Option.some.inj hsome]
        exact Or.inl (h.sound e found hfound)
    · exact Or.inl (h.sound e other hsome)
  · intro e other hslice
    unfold RecoveryIndex.orInsert
    split
    · exact Option.some_ne_none _
    · rename_i hne
      rcases (hone e other).mp hslice with hold | ⟨heq, -⟩
      · exact h.complete e other hold
      · exact absurd heq.symm hne

end RecoveryIndex

section Slices

variable {files : List (List Packet)} {doneFiles : List (List Packet)} {done : List Packet}

theorem getElem?_concat {α : Type*} {l : List α} {a b : α} {i : ℕ} : (l ++ [a])[i]? = some b ↔ l[i]? = some b ∨ (i = l.length ∧ a = b) := by
  rcases lt_trichotomy i l.length with hlt | rfl | hgt
  · rw [List.getElem?_append_left hlt]
    exact ⟨Or.inl, fun h => h.resolve_right fun heq => absurd heq.1 hlt.ne⟩
  · rw [List.getElem?_concat_length, List.getElem?_eq_none le_rfl, Option.some_inj]
    exact ⟨fun h => Or.inr ⟨rfl, h⟩, fun h => h.elim nofun And.right⟩
  · rw [List.getElem?_eq_none (by rw [List.length_append, List.length_singleton]; omega), List.getElem?_eq_none hgt.le]
    exact ⟨nofun, fun h => h.elim nofun fun heq => absurd heq.1 hgt.ne'⟩

theorem sliceAt_concat {e : ℕ} {place : ℕ × ℕ} : SliceAt md5 (doneFiles ++ [done ++ [p]]) e place ↔ SliceAt md5 (doneFiles ++ [done]) e place ∨
    (p.kind = par2TypeRecovery ∧ p.exponent = e ∧ place = (doneFiles.length, (encodeAll md5 done).length + par2HeaderBytes + 4)) := by
  constructor
  · rintro ⟨packets, i, q, hfile, hpacket, hkind, he, hoffset⟩
    rcases getElem?_concat.mp hfile with hold | ⟨hlast, rfl⟩
    · exact Or.inl ⟨packets, i, q, getElem?_concat.mpr (Or.inl hold), hpacket, hkind, he, hoffset⟩
    · rcases getElem?_concat.mp hpacket with hin | ⟨hi, rfl⟩
      · have hlt : i < done.length := (List.getElem?_eq_some_iff.mp hin).1
        rw [List.take_append_of_le_length hlt.le] at hoffset
        exact Or.inl ⟨done, i, q, getElem?_concat.mpr (Or.inr ⟨hlast, rfl⟩), hin, hkind, he, hoffset⟩
      · rw [hi, List.take_left] at hoffset
        exact Or.inr ⟨hkind, he, Prod.ext hlast hoffset⟩
  · rintro (⟨packets, i, q, hfile, hpacket, hkind, he, hoffset⟩ | ⟨hkind, he, rfl⟩)
    · rcases getElem?_concat.mp hfile with hold | ⟨hlast, rfl⟩
      · exact ⟨packets, i, q, getElem?_concat.mpr (Or.inl hold), hpacket, hkind, he, hoffset⟩
      · have hlt : i < done.length := (List.getElem?_eq_some_iff.mp hpacket).1
        refine ⟨done ++ [p], i, q, getElem?_concat.mpr (Or.inr ⟨hlast, rfl⟩), getElem?_concat.mpr (Or.inl hpacket), hkind, he, ?_⟩
        rw [List.take_append_of_le_length hlt.le]
        exact hoffset
    · refine ⟨done ++ [p], done.length, p, getElem?_concat.mpr (Or.inr ⟨rfl, rfl⟩), getElem?_concat.mpr (Or.inr ⟨rfl, rfl⟩), hkind, he, ?_⟩
      rw [List.take_left]

theorem sliceAt_new {e : ℕ} {place : ℕ × ℕ} : SliceAt md5 (doneFiles ++ [[]]) e place ↔ SliceAt md5 doneFiles e place := by
  constructor
  · rintro ⟨packets, i, q, hfile, hpacket, hrest⟩
    rcases getElem?_concat.mp hfile with hold | ⟨-, rfl⟩
    · exact ⟨packets, i, q, hold, hpacket, hrest⟩
    · cases hpacket
  · rintro ⟨packets, i, q, hfile, hrest⟩
    exact ⟨packets, i, q, getElem?_concat.mpr (Or.inl hfile), hrest⟩

/-- `index_recovery_packets` finds the recovery packets of a row. -/
theorem indexLoop_all (h : ∀ p ∈ packets, p.WellFormed sliceSize ∧ p.setId = setId) (hmd5 : ∀ x, (md5 x).length = 16)
    (hsize : fileSize = (encodeAll md5 done).length + (encodeAll md5 packets).length) (hsmall : fileSize < 2 ^ 63)
    (hexact : index.Exact (SliceAt md5 (doneFiles ++ [done]))) :
    ∃ index' starts', indexLoop setId sliceSize doneFiles.length fileSize (encodeAll md5 done).length (encodeAll md5 packets) index starts =
      .ok (index', starts') ∧ index'.Exact (SliceAt md5 (doneFiles ++ [done ++ packets])) := by
  induction packets generalizing done index starts with
  | nil =>
    have hend : fileSize = (encodeAll md5 done).length := hsize
    rw [List.append_nil, ← hend]
    exact ⟨index, starts, indexLoop_end hsmall, hexact⟩
  | cons p rest ih =>
    rw [List.forall_mem_cons] at h
    obtain ⟨⟨hwf, hset⟩, hrest⟩ := h
    have hencode : encodeAll md5 (p :: rest) = p.encode md5 ++ encodeAll md5 rest := rfl
    have hlength : (p.encode md5).length = p.length := Packet.length_encode hwf.sized hmd5
    have hdone : encodeAll md5 (done ++ [p]) = encodeAll md5 done ++ p.encode md5 := by
      simp only [encodeAll, List.flatMap_append, List.flatMap_cons, List.flatMap_nil, List.append_nil]
    have hposition : (encodeAll md5 done).length + p.length = (encodeAll md5 (done ++ [p])).length := by
      rw [hdone, List.length_append, hlength]
    obtain ⟨-, hid, hkind, hbody⟩ := Packet.read_content hwf.sized hmd5 (encodeAll md5 rest)
    rw [hencode] at hsize ⊢
    rw [indexLoop_packet (packetAt_encode hwf hmd5 _) hsize hsmall, List.drop_left' hlength, hid, hkind, hbody, hposition,
      List.append_cons done p rest]
    rw [List.length_append, hlength] at hsize
    refine ih hrest (by omega) ?_
    by_cases hrecovery : p.kind = par2TypeRecovery
    · have hfull := hwf.recovery hrecovery
      have hexponent : (p.body ++ encodeAll md5 rest).take 4 = p.body.take 4 := List.take_append_of_le_length (by omega)
      have hlarge : 4 + sliceSize ≤ p.length - par2HeaderBytes := by
        unfold Packet.length
        omega
      rw [if_pos ⟨hset, hrecovery, hlarge⟩, hexponent]
      refine hexact.orInsert fun e other => ?_
      rw [sliceAt_concat]
      exact or_congr_right (and_iff_right hrecovery)
    · rw [if_neg fun hall => hrecovery hall.2.1]
      refine hexact.congr fun e other => ?_
      rw [sliceAt_concat]
      exact or_iff_left fun hall => hrecovery hall.1

/-- The recovery packets of all files. -/
theorem indexRecoveryPackets_all (h : ∀ packets ∈ files, ∀ p ∈ packets, p.WellFormed sliceSize ∧ p.setId = setId) (hmd5 : ∀ x, (md5 x).length = 16)
    (hsmall : ∀ packets ∈ files, (encodeAll md5 packets).length < 2 ^ 63) :
    ∃ index, indexRecoveryPackets setId sliceSize (files.map (encodeAll md5)) = .ok index ∧ index.Exact (SliceAt md5 files) := by
  have hrun : ∀ (todo doneFiles : List (List Packet)) (index : RecoveryIndex), (∀ packets ∈ todo, packets ∈ files) →
      index.Exact (SliceAt md5 doneFiles) → ∃ index', ((todo.map (encodeAll md5)).zipIdx doneFiles.length).foldlM
        (fun index file => (indexFile setId sliceSize file.2 file.1 index).map Prod.fst) index = .ok index' ∧
        index'.Exact (SliceAt md5 (doneFiles ++ todo)) := by
    intro todo
    induction todo with
    | nil =>
      intro doneFiles index _ hexact
      rw [List.append_nil]
      exact ⟨index, rfl, hexact⟩
    | cons packets rest ih =>
      intro doneFiles index hmem hexact
      rw [List.forall_mem_cons] at hmem
      have hone : ∃ next starts, indexLoop setId sliceSize doneFiles.length (encodeAll md5 packets).length 0 (encodeAll md5 packets) index [] =
          .ok (next, starts) ∧ next.Exact (SliceAt md5 (doneFiles ++ [packets])) :=
        indexLoop_all (h packets hmem.1) hmd5 (Nat.zero_add _).symm (hsmall packets hmem.1) (hexact.congr fun e place => sliceAt_new)
      obtain ⟨next, starts, hnext, hexact'⟩ := hone
      obtain ⟨index', hindex', hall⟩ := ih (doneFiles ++ [packets]) next hmem.2 hexact'
      have hfile : indexFile setId sliceSize doneFiles.length (encodeAll md5 packets) index = .ok (next, starts) := hnext
      rw [List.map_cons, List.zipIdx_cons, List.foldlM_cons, hfile]
      rw [List.length_append, List.length_singleton] at hindex'
      rw [List.append_assoc, List.singleton_append] at hall
      exact ⟨index', hindex', hall⟩
  have hempty : RecoveryIndex.Exact (fun _ => none) (SliceAt md5 []) := ⟨nofun, by rintro e place ⟨packets, i, p, hfile, -⟩; cases hfile⟩
  exact hrun files [] _ (fun _ => id) hempty

end Slices

/-! ## Sizes -/

theorem packets_countAll (packets : List Packet) (stats : ParityFileStats) : (countAll packets stats).packets = stats.packets + packets.length := by
  induction packets generalizing stats with
  | nil => rfl
  | cons p rest ih =>
    have hcons : countAll (p :: rest) stats = countAll rest (stats.add p) := rfl
    rw [hcons, ih, List.length_cons]
    show stats.packets + 1 + rest.length = _
    omega

theorem length_encodeAll_le {bound : ℕ} (h : ∀ p ∈ packets, p.Sized ∧ p.length ≤ bound) (hmd5 : ∀ x, (md5 x).length = 16) :
    (encodeAll md5 packets).length ≤ packets.length * bound := by
  induction packets with
  | nil => exact Nat.zero_le _
  | cons p rest ih =>
    rw [List.forall_mem_cons] at h
    have hencode : encodeAll md5 (p :: rest) = p.encode md5 ++ encodeAll md5 rest := rfl
    rw [hencode, List.length_append, Packet.length_encode h.1.1 hmd5, List.length_cons, Nat.succ_mul, Nat.add_comm]
    exact Nat.add_le_add (ih h.2) h.1.2

theorem le_of_sliceSizeAccepted (h : sliceSizeAccepted sliceSize = true) : sliceSize ≤ maxPar2SliceBytes := by
  unfold sliceSizeAccepted at h
  simp only [Bool.not_eq_true', Bool.or_eq_false_iff, decide_eq_false_iff_not, not_lt] at h
  exact h.1.2

/-- A packet with a slice of an accepted size exceeds the limit of a packet by four bytes at most. -/
theorem length_le_of_wellFormed (h : p.WellFormed sliceSize) (hslice : sliceSize ≤ maxPar2SliceBytes) :
    p.length ≤ maxPar2SliceBytes + par2HeaderBytes + 4 := by
  by_cases hrecovery : p.kind = par2TypeRecovery
  · have hbody := h.recovery hrecovery
    unfold Packet.length
    omega
  · exact (h.metadata hrecovery).trans (by decide)

theorem encodeAll_small (h : ∀ p ∈ packets, p.WellFormed sliceSize) (hmd5 : ∀ x, (md5 x).length = 16) (hslice : sliceSize ≤ maxPar2SliceBytes)
    (hwithin : (countAll packets .zero).Within metadataLimit) : (encodeAll md5 packets).length < 2 ^ 63 := by
  have hcount : packets.length ≤ maxPar2PacketCount := by
    have hpackets := hwithin.packets
    rw [packets_countAll] at hpackets
    exact (Nat.le_add_left _ _).trans hpackets
  have hbytes := length_encodeAll_le (fun p hp => ⟨(h p hp).sized, length_le_of_wellFormed (h p hp) hslice⟩) hmd5
  have hproduct := Nat.mul_le_mul_right (maxPar2SliceBytes + par2HeaderBytes + 4) hcount
  exact (hbytes.trans hproduct).trans_lt (by decide)

end Usenet

end Risuko
