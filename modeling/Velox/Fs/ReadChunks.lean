import Velox.Fs.DirAgree
import Velox.Fs.VfsEffects

namespace Velox

open Lib (Bytes)

/-- The clusters that the copy loop of `fat32_read_file_at` reads from. -/
def IsDataCluster (cluster : Nat) : Prop := 2 ≤ cluster ∧ cluster < fat32Eoc

instance (cluster : Nat) : Decidable (IsDataCluster cluster) := inferInstanceAs (Decidable (_ ∧ _))

/-- How many clusters there are before the chain leaves these, up to a bound. -/
def Fat32Vol.clustersHeld (disk : Disk) (vol : Fat32Vol) : Nat → Nat → Nat
  | 0, _ => 0
  | bound + 1, cluster =>
    if IsDataCluster cluster then vol.clustersHeld disk bound (fat32ReadFatEntry disk vol cluster) + 1 else 0

/-- The length of what can be read of a file: its chain may be shorter than its size. -/
def Fat32Vol.heldLength (disk : Disk) (vol : Fat32Vol) (firstCluster fileSize : Nat) : Nat :=
  min fileSize (vol.clustersHeld disk fileSize firstCluster * vol.bytesPerCluster)

def Fat32Vol.heldByte (disk : Disk) (vol : Fat32Vol) (firstCluster position : Nat) : UInt8 :=
  match fat32ReadCluster disk vol ((fat32ReadFatEntry disk vol)^[position / vol.bytesPerCluster] firstCluster) fun _ => 0 with
  | none => 0
  | some filled => filled (position % vol.bytesPerCluster)

/-- What can be read of a file. -/
def Fat32Vol.held (disk : Disk) (vol : Fat32Vol) (firstCluster fileSize : Nat) : List UInt8 :=
  (List.range (vol.heldLength disk firstCluster fileSize)).map (vol.heldByte disk firstCluster)

section Chain

variable {disk : Disk} {vol : Fat32Vol} {bound cluster i : Nat}

theorem clustersHeld_le_of_left (left : ¬ IsDataCluster ((fat32ReadFatEntry disk vol)^[i] cluster)) :
    vol.clustersHeld disk bound cluster ≤ i := by
  induction bound generalizing cluster i with
  | zero => exact Nat.zero_le i
  | succ bound ih =>
    rw [Fat32Vol.clustersHeld]
    split
    · rename_i data
      cases i with
      | zero => exact absurd data left
      | succ i => exact Nat.succ_le_succ (ih left)
    · exact Nat.zero_le i

theorem clustersHeld_left (short : vol.clustersHeld disk bound cluster < bound) :
    ¬ IsDataCluster ((fat32ReadFatEntry disk vol)^[vol.clustersHeld disk bound cluster] cluster) := by
  induction bound generalizing cluster with
  | zero => cases short
  | succ bound ih =>
    rw [Fat32Vol.clustersHeld] at short ⊢
    split at short
    · rename_i data
      rw [if_pos data]
      exact ih (Nat.lt_of_succ_lt_succ short)
    · rename_i other
      rw [if_neg other]
      exact other

end Chain

section Reads

variable {disk : Disk} {vol : Fat32Vol} {firstCluster fileSize offset q : Nat}

theorem heldLength_le_size : vol.heldLength disk firstCluster fileSize ≤ fileSize := Nat.min_le_left _ _

/-- Nothing can be read from where the chain has left the data clusters. -/
theorem heldLength_le_of_left (left : ¬ IsDataCluster ((fat32ReadFatEntry disk vol)^[q] firstCluster)) :
    vol.heldLength disk firstCluster fileSize ≤ q * vol.bytesPerCluster :=
  (Nat.min_le_right _ _).trans (Nat.mul_le_mul_right _ (clustersHeld_le_of_left left))

/-- A data cluster that begins in the part that can be read is in that part, up to the size of the file. -/
theorem le_heldLength (size : 0 < vol.bytesPerCluster) (begins : q * vol.bytesPerCluster ≤ vol.heldLength disk firstCluster fileSize)
    (below : q * vol.bytesPerCluster < fileSize) (data : IsDataCluster ((fat32ReadFatEntry disk vol)^[q] firstCluster))
    {position : Nat} (inFile : position ≤ fileSize) (inCluster : position ≤ (q + 1) * vol.bytesPerCluster) :
    position ≤ vol.heldLength disk firstCluster fileSize := by
  have reached : q ≤ vol.clustersHeld disk fileSize firstCluster :=
    Nat.le_of_mul_le_mul_right (begins.trans (Nat.min_le_right _ _)) size
  have further : q < vol.clustersHeld disk fileSize firstCluster := by
    rcases Nat.lt_or_eq_of_le reached with less | same
    · exact less
    · have few : q < fileSize := lt_of_le_of_lt (Nat.le_mul_of_pos_right q size) below
      grind [clustersHeld_left]
  exact le_min inFile (inCluster.trans (Nat.mul_le_mul_right _ further))

theorem heldByte_cluster {filled buf : Bytes} {i : Nat} (mounted : vol.Mounted) (sector512 : vol.bpb.bytesPerSector = 512)
    (read : fat32ReadCluster disk vol ((fat32ReadFatEntry disk vol)^[q] firstCluster) buf = some filled)
    (inside : i < vol.bytesPerCluster) : vol.heldByte disk firstCluster (q * vol.bytesPerCluster + i) = filled i := by
  have index : (q * vol.bytesPerCluster + i) / vol.bytesPerCluster = q := by
    rw [Nat.mul_comm, Nat.mul_add_div (by omega), Nat.div_eq_of_lt inside, Nat.add_zero]
  have rest : (q * vol.bytesPerCluster + i) % vol.bytesPerCluster = i := by
    rw [Nat.mul_comm, Nat.mul_add_mod, Nat.mod_eq_of_lt inside]
  obtain ⟨zeros, read', same, -⟩ := fat32ReadCluster_other read fun _ => 0
  rw [Fat32Vol.heldByte, index, rest, read']
  grind [Fat32Vol.Mounted.bytesPerCluster]

/-- What the skip loop has done: it has followed the chain over whole clusters. -/
theorem skip_ends (size : 0 < vol.bytesPerCluster) {fuel : Nat} (enough : offset < fuel) :
    ∃ result, Lib.loop (skipPass disk vol) fuel (firstCluster, offset) = some result ∧ match result with
      | .ok (cluster, skip) => ∃ q, cluster = (fat32ReadFatEntry disk vol)^[q] firstCluster ∧
          q * vol.bytesPerCluster + skip = offset ∧ skip < vol.bytesPerCluster
      | .error rc => 0 ≤ rc → rc = 0 ∧ vol.heldLength disk firstCluster fileSize ≤ offset := by
  refine Lib.loop_total (fun bound (state : Nat × Nat) => state.2 = bound ∧ ∃ q,
    state.1 = (fat32ReadFatEntry disk vol)^[q] firstCluster ∧ q * vol.bytesPerCluster + state.2 = offset) _ ?_ ?_
    ⟨rfl, 0, rfl, by simp⟩ enough
  · rintro bound ⟨cluster, skip⟩ next ⟨rfl, q, rfl, placed⟩ onward
    simp only [skipPass] at onward
    split at onward
    · cases onward
    split at onward
    · cases onward
    split at onward
    · cases onward
    · cases onward
      refine ⟨skip - vol.bytesPerCluster, by omega, rfl, q + 1, ?_, ?_⟩
      · rw [Function.iterate_succ_apply']
      grind
  · rintro bound ⟨cluster, skip⟩ result ⟨rfl, q, rfl, placed⟩ ended
    simp only [skipPass] at ended
    split at ended
    · grind
    split at ended
    · cases ended
      intro no
      exact absurd no (by decide)
    split at ended
    · rename_i last
      cases ended
      have left : ¬ IsDataCluster ((fat32ReadFatEntry disk vol)^[q + 1] firstCluster) := by
        rw [Function.iterate_succ_apply']
        exact fun data => absurd data.2 (Nat.not_lt.mpr last)
      refine fun _ => ⟨rfl, (heldLength_le_of_left left).trans ?_⟩
      grind
    · cases ended

/-- The state of the copy loop, between its passes. -/
structure Copying (disk : Disk) (vol : Fat32Vol) (firstCluster fileSize offset count : Nat) (s : FileCopy) : Prop where
  place : ∃ q, s.cluster = (fat32ReadFatEntry disk vol)^[q] firstCluster ∧
    q * vol.bytesPerCluster + s.intra = offset + s.totalRead
  inside : s.intra < vol.bytesPerCluster
  wanted : 0 < s.toRead
  left : s.totalRead + s.toRead = count
  held : offset + s.totalRead ≤ vol.heldLength disk firstCluster fileSize
  bytes : ∀ i < s.totalRead, s.buf i = vol.heldByte disk firstCluster (offset + i)

/-- A read that reports no error delivers all that was asked for and can be read. -/
def ReadsHeld (disk : Disk) (vol : Fat32Vol) (firstCluster fileSize offset count : Nat) : Int × Bytes → Prop
  | (ret, buf) => 0 ≤ ret → ret = ((min count (vol.heldLength disk firstCluster fileSize - offset) : Nat) : Int) ∧
      ∀ i < ret.toNat, buf i = vol.heldByte disk firstCluster (offset + i)

theorem readsHeld_of_nat {count total : Nat} {buf : Bytes}
    (all : total = min count (vol.heldLength disk firstCluster fileSize - offset))
    (bytes : ∀ i < total, buf i = vol.heldByte disk firstCluster (offset + i)) :
    ReadsHeld disk vol firstCluster fileSize offset count ((total : Int), buf) :=
  fun _ => ⟨by rw [all], bytes⟩

section

variable (mounted : vol.Mounted) (sector512 : vol.bpb.bytesPerSector = 512)
include mounted sector512

/-- Copying a part of the cluster that was read goes on with the bytes of the file. -/
theorem memcpy_heldByte {q intra chunk totalRead : Nat} {buf clusterBuf filled : Bytes}
    (read : fat32ReadCluster disk vol ((fat32ReadFatEntry disk vol)^[q] firstCluster) clusterBuf = some filled)
    (placed : q * vol.bytesPerCluster + intra = offset + totalRead)
    (fits : intra + chunk ≤ vol.bytesPerCluster)
    (bytes : ∀ i < totalRead, buf i = vol.heldByte disk firstCluster (offset + i)) :
    ∀ i < totalRead + chunk, Lib.memcpy buf totalRead filled intra chunk i =
      vol.heldByte disk firstCluster (offset + i) := by
  intro i below
  unfold Lib.memcpy
  by_cases new : totalRead ≤ i
  · rw [if_pos ⟨new, below⟩]
    rw [← heldByte_cluster mounted sector512 read (show intra + (i - totalRead) < _ by omega)]
    congr 1
    omega
  grind

section

variable {count : Nat} {s : FileCopy}
  (copying : Copying disk vol firstCluster fileSize offset count s)
  (inFile : offset + count ≤ fileSize)
include copying inFile

theorem Copying.pass :
    match copyPass disk vol s with
    | .inl next => next.toRead < s.toRead ∧ Copying disk vol firstCluster fileSize offset count next
    | .inr result => ReadsHeld disk vol firstCluster fileSize offset count result := by
  obtain ⟨⟨q, here, placed⟩, inside, wanted, left, held, bytes⟩ := copying
  unfold copyPass
  by_cases enter : 0 < s.toRead ∧ 2 ≤ s.cluster ∧ s.cluster < fat32Eoc
  swap
  · rw [if_pos enter]
    have none' : ¬ IsDataCluster ((fat32ReadFatEntry disk vol)^[q] firstCluster) := by
      rw [← here]
      exact fun data => enter ⟨wanted, data⟩
    have bound := @heldLength_le_of_left disk vol firstCluster fileSize q none'
    exact readsHeld_of_nat (by omega) bytes
  rw [if_neg (not_not.mpr enter)]
  cases read : fat32ReadCluster disk vol s.cluster s.clusterBuf with
  | none => exact fun no => absurd no (by decide)
  | some filled =>
    obtain ⟨chunk, chunk_eq⟩ : ∃ chunk, chunk = if s.toRead < vol.bytesPerCluster - s.intra then s.toRead
      else vol.bytesPerCluster - s.intra := ⟨_, rfl⟩
    have fits : s.intra + chunk ≤ vol.bytesPerCluster ∧ chunk ≤ s.toRead ∧ 0 < chunk := by grind
    have moved := memcpy_heldByte mounted sector512 (here ▸ read) placed fits.1 bytes
    have data : IsDataCluster ((fat32ReadFatEntry disk vol)^[q] firstCluster) := here ▸ enter.2
    have held' : offset + (s.totalRead + chunk) ≤ vol.heldLength disk firstCluster fileSize := by
      refine le_heldLength (by omega) (by omega) (by omega) data (by omega) ?_
      grind
    dsimp only
    rw [← chunk_eq]
    by_cases last : s.toRead - chunk = 0
    · rw [if_pos last]
      exact readsHeld_of_nat (by omega) moved
    rw [if_neg last]
    have ahead : (q + 1) * vol.bytesPerCluster = offset + (s.totalRead + chunk) := by
      grind
    have next : fat32ReadFatEntry disk vol s.cluster = (fat32ReadFatEntry disk vol)^[q + 1] firstCluster := by
      rw [Function.iterate_succ_apply', here]
    by_cases bad : fat32ReadFatEntry disk vol s.cluster = fat32Bad
    · rw [if_pos bad]
      exact fun no => absurd no (by decide)
    rw [if_neg bad]
    by_cases eoc : fat32Eoc ≤ fat32ReadFatEntry disk vol s.cluster
    · rw [if_pos eoc]
      have none' : ¬ IsDataCluster ((fat32ReadFatEntry disk vol)^[q + 1] firstCluster) := by
        rw [← next]
        exact fun data => absurd data.2 (Nat.not_lt.mpr eoc)
      have bound := @heldLength_le_of_left disk vol firstCluster fileSize _ none'
      exact readsHeld_of_nat (by omega) moved
    · rw [if_neg eoc]
      refine ⟨by dsimp only; omega, ⟨q + 1, next, ahead⟩, by dsimp only; omega, by dsimp only; omega, ?_, held', moved⟩
      dsimp only
      omega

theorem copy_ends {fuel : Nat} (enough : s.toRead < fuel) :
    ∃ result, Lib.loop (copyPass disk vol) fuel s = some result ∧
      ReadsHeld disk vol firstCluster fileSize offset count result := by
  refine Lib.loop_total (fun bound s => s.toRead = bound ∧ Copying disk vol firstCluster fileSize offset count s)
    _ ?_ ?_ ⟨rfl, copying⟩ enough
  · rintro bound s next ⟨rfl, copying⟩ onward
    have pass := copying.pass mounted sector512 inFile
    rw [onward] at pass
    exact ⟨_, pass.1, rfl, pass.2⟩
  · rintro bound s result ⟨-, copying⟩ ended
    have pass := copying.pass mounted sector512 inFile
    rwa [ended] at pass

end

/-- A read from inside the part that can be read ends, and delivers what is there unless it reports
an error. -/
theorem fat32ReadFileAt_held (inside : offset ≤ vol.heldLength disk firstCluster fileSize)
    {fuel : Nat} (enough : fileSize < fuel) (clusterBuf : Option Bytes) (buf : Bytes) (len : Nat) :
    ∃ result, fat32ReadFileAt disk vol fuel clusterBuf firstCluster fileSize offset buf len = some result ∧
      ReadsHeld disk vol firstCluster fileSize offset len result := by
  have size : 0 < vol.bytesPerCluster := by
    rw [mounted.bytesPerCluster, sector512]
    exact Nat.mul_pos (by decide) mounted.sectors
  have most := @heldLength_le_size disk vol firstCluster fileSize
  unfold fat32ReadFileAt
  by_cases nothing : fileSize ≤ offset ∨ len = 0
  · refine ⟨(0, buf), if_pos nothing, @readsHeld_of_nat disk vol firstCluster fileSize offset len 0 buf (by omega) ?_⟩
    omega
  rw [if_neg nothing, if_neg (by omega)]
  by_cases reserved : firstCluster < 2
  · exact ⟨_, if_pos reserved, fun no => absurd no (by decide)⟩
  rw [if_neg reserved]
  cases clusterBuf with
  | none => exact ⟨_, rfl, fun no => absurd no (by decide)⟩
  | some clusterBuf =>
    obtain ⟨count, count_eq⟩ : ∃ count, count = if fileSize - offset < len then fileSize - offset else len := ⟨_, rfl⟩
    have clipped : count = min len (fileSize - offset) := by
      grind
    obtain ⟨result, skipped, after⟩ := @skip_ends disk vol firstCluster fileSize offset size fuel (by omega)
    simp only [skipped, ← count_eq]
    rcases result with rc | ⟨cluster, skip⟩
    · refine ⟨(rc, buf), rfl, fun fine => ?_⟩
      grind
    · obtain ⟨q, rfl, placed, below⟩ := after
      have start : Copying disk vol firstCluster fileSize offset count
          ⟨(fat32ReadFatEntry disk vol)^[q] firstCluster, skip, 0, count, buf, clusterBuf⟩ :=
        ⟨⟨q, rfl, placed⟩, below, by dsimp only; omega, Nat.zero_add _, inside, nofun⟩
      obtain ⟨result, copied, reads⟩ := copy_ends mounted sector512 start (by omega) (show count < fuel by omega)
      refine ⟨result, copied, fun fine => ?_⟩
      rw [show min len (vol.heldLength disk firstCluster fileSize - offset) =
        min count (vol.heldLength disk firstCluster fileSize - offset) by omega]
      exact reads fine

end

end Reads

/-- A regular file that is open, with its position. -/
def OpenAt {M : Type} (s : Vfs M) (file : Nat) (inode : Fat32Inode) (pos : Nat) : Prop :=
  ∃ held node, s.files file = some held ∧ held.pos = pos ∧ s.nodes held.node = some node ∧
    node.ops = some .fat32File ∧ node.data = some inode

/-- Reads from a file in turn, into buffers with their sizes: what each returned and left in its
buffer, and the state after it. -/
def vfsReads {M : Type} (mem : Allocator M) (env : FsEnv) (s : Vfs M) (file : Nat) :
    List (Bytes × Nat) → FsM (List ((Int × Bytes) × Vfs M))
  | [] => .ok []
  | (buf, len) :: rest => do
    let (answer, s) ← vfsRead mem env s file buf len
    let answers ← vfsReads mem env s file rest
    return (answer, s) :: answers

/-- The bytes that a read has delivered. -/
def deliveredBy (answer : Int × Bytes) : List UInt8 := (List.range answer.1.toNat).map answer.2

def delivered {M : Type} (answers : List ((Int × Bytes) × Vfs M)) : List UInt8 :=
  answers.flatMap fun answer => deliveredBy answer.1

section Files

variable {M : Type} {mem : Allocator M} {Owns : M → Multiset Block → Prop} {env : FsEnv} {s t : Vfs M}
variable {blocks : Multiset Block} {file pos : Nat} {inode : Fat32Inode}

/-- What can be read of an open file. -/
def FsEnv.contents (env : FsEnv) (inode : Fat32Inode) : List UInt8 :=
  inode.vol.held env.disk inode.firstCluster inode.size

theorem contents_length : (env.contents inode).length = inode.vol.heldLength env.disk inode.firstCluster inode.size := by
  rw [FsEnv.contents, Fat32Vol.held, List.length_map, List.length_range]

theorem ReadsHeld.delivered {len : Nat} {answer : Int × Bytes} (fine : 0 ≤ answer.1)
    (reads : ReadsHeld env.disk inode.vol inode.firstCluster inode.size pos len answer) :
    deliveredBy answer = ((env.contents inode).drop pos).take len := by
  obtain ⟨ret, buf⟩ := answer
  obtain ⟨rfl, bytes⟩ := reads fine
  rw [deliveredBy]
  have length : ((min len (inode.vol.heldLength env.disk inode.firstCluster inode.size - pos) : Nat) : Int).toNat =
      min len (inode.vol.heldLength env.disk inode.firstCluster inode.size - pos) := Int.toNat_natCast _
  refine List.ext_getElem ?_ fun i below _ => ?_
  · rw [List.length_map, List.length_range, length, List.length_take, List.length_drop, contents_length]
  rw [List.length_map, List.length_range] at below
  simp only [List.getElem_map, List.getElem_range, List.getElem_take, List.getElem_drop, FsEnv.contents, Fat32Vol.held]
  exact bytes i below

section

variable (accounts : Accounting mem Owns) (owns : Owns s.memory blocks)
include accounts owns

/-- A scan that always ends, with its buffer taken and given back. -/
theorem withClusterBuf_total {α : Type} (taken : Bool) {scan : Option Bytes → FsM α}
    {Post : α → Prop} (all : ∀ buf, ∃ result, scan buf = .ok result ∧ Post result) :
    ∃ result t, withClusterBuf mem env s taken scan = .ok (result, t) ∧ SameTree s t ∧ Owns t.memory blocks ∧ Post result := by
  obtain ⟨buf, t, same, owns', scanned⟩ := withClusterBuf_eq accounts owns taken
  obtain ⟨result, done, holds⟩ := all buf
  refine ⟨result, t, ?_, same, owns', holds⟩
  rw [scanned, done]
  rfl

theorem fat32VfsRead_held {held : VfsFile} {node : VfsNode} (mounted : inode.vol.Mounted)
    (sector512 : inode.vol.bpb.bytesPerSector = 512) (enough : inode.size < env.fuel)
    (here : s.nodes held.node = some node) (data : node.data = some inode)
    (inside : held.pos ≤ inode.vol.heldLength env.disk inode.firstCluster inode.size)
    (buf : Bytes) (len : Nat) :
    ∃ answer t, fat32VfsRead mem env s held buf len = .ok (answer, t) ∧ SameTree s t ∧ Owns t.memory blocks ∧
      ReadsHeld env.disk inode.vol inode.firstCluster inode.size held.pos len answer := by
  unfold fat32VfsRead
  simp only [Vfs.node_eq here, data, bind, Except.bind]
  refine withClusterBuf_total accounts owns _ fun clusterBuf => ?_
  obtain ⟨result, read, holds⟩ := fat32ReadFileAt_held mounted sector512 inside enough clusterBuf buf len
  grind

/-- One read from an open file. -/
theorem vfsRead_openAt (mounted : inode.vol.Mounted)
    (sector512 : inode.vol.bpb.bytesPerSector = 512) (small : inode.size < 2 ^ 32)
    (enough : inode.size < env.fuel) (opened : OpenAt s file inode pos)
    (inside : pos ≤ (env.contents inode).length) (buf : Bytes) (len : Nat) :
    ∃ answer t, vfsRead mem env s file buf len = .ok (answer, t) ∧ Owns t.memory blocks ∧
      (0 ≤ answer.1 → deliveredBy answer = ((env.contents inode).drop pos).take len) ∧
      OpenAt t file inode (pos + (deliveredBy answer).length) ∧ pos + (deliveredBy answer).length ≤ (env.contents inode).length := by
  obtain ⟨held, node, isOpen, rfl, here, ops, data⟩ := opened
  rw [contents_length] at inside
  obtain ⟨⟨ret, buf'⟩, t, read, same, owns', holds⟩ :=
    fat32VfsRead_held accounts owns mounted sector512 enough here data inside buf len
  have length : (deliveredBy (ret, buf')).length = ret.toNat := by rw [deliveredBy, List.length_map, List.length_range]
  have most : ret.toNat ≤ inode.vol.heldLength env.disk inode.firstCluster inode.size - held.pos := by
    by_cases fine : 0 ≤ ret
    · rw [(holds fine).1]
      omega
    · omega
  have bound := @heldLength_le_size env.disk inode.vol inode.firstCluster inode.size
  have moved : (if 0 < ret then (held.pos + ret.toNat) % 2 ^ 64 else held.pos) = held.pos + ret.toNat := by
    grind
  refine ⟨(ret, buf'), { t with files := Function.update t.files file (some { held with pos := held.pos + ret.toNat }) },
    ?_, owns', fun fine => holds.delivered fine, ?_, by rw [length, contents_length]; omega⟩
  · simp only [vfsRead, Vfs.file, isOpen, Vfs.node_eq here, ops, read, moved, bind, Except.bind, pure, Except.pure]
  · refine ⟨{ held with pos := held.pos + ret.toNat }, node, Function.update_self .., by rw [length], ?_, ops, data⟩
    rw [← here]
    exact congrFun same.nodes held.node

end

theorem take_drop_step {α : Type} (data : List α) (pos first rest : Nat) :
    (data.drop pos).take first ++ (data.drop (pos + ((data.drop pos).take first).length)).take rest =
      (data.drop pos).take (first + rest) := by
  rw [List.take_add, ← List.drop_drop]
  grind [List.drop_eq_nil_of_le]

/-- Reads in turn deliver what lies behind each other in the file, and the position follows them. -/
theorem vfsReads_openAt (accounts : Accounting mem Owns) (owns : Owns s.memory blocks) (mounted : inode.vol.Mounted)
    (sector512 : inode.vol.bpb.bytesPerSector = 512) (small : inode.size < 2 ^ 32) (enough : inode.size < env.fuel)
    (opened : OpenAt s file inode pos) (inside : pos ≤ (env.contents inode).length) (calls : List (Bytes × Nat)) :
    ∃ answers, vfsReads mem env s file calls = .ok answers ∧ ((∀ answer ∈ answers, 0 ≤ answer.1.1) →
        delivered answers = ((env.contents inode).drop pos).take (calls.map Prod.snd).sum) ∧
      ∀ k answer, answers[k]? = some answer →
        OpenAt answer.2 file inode (pos + (delivered (answers.take (k + 1))).length) := by
  induction calls generalizing s pos with
  | nil => exact ⟨[], rfl, fun _ => by simp [delivered], nofun⟩
  | cons call rest ih =>
    obtain ⟨buf, len⟩ := call
    obtain ⟨answer, t, read, owns', bytes, opened', inside'⟩ :=
      vfsRead_openAt accounts owns mounted sector512 small enough opened inside buf len
    obtain ⟨answers, reads, others, places⟩ := ih owns' opened' inside'
    refine ⟨(answer, t) :: answers, by rw [vfsReads, read]; simp only [bind, Except.bind, reads]; rfl, ?_, ?_⟩
    · intro fine
      have first := bytes (fine _ List.mem_cons_self)
      have later := others fun answer member => fine answer (List.mem_cons_of_mem _ member)
      rw [List.map_cons, List.sum_cons, ← take_drop_step, ← first, ← later]
      rfl
    · intro k found there
      cases k with
      | zero =>
        cases there
        simpa [delivered] using opened'
      | succ k =>
        have place := places k found there
        rw [List.take_succ_cons, delivered, List.flatMap_cons, List.length_append, ← Nat.add_assoc]
        exact place

end Files

theorem vfsOpen_pos {M : Type} {mem : Allocator M} {env : FsEnv} {s t : Vfs M} {path : List UInt8} {flags file : Nat} {rc : Int}
    (opened : vfsOpen mem env s path flags = .ok ((rc, some file), t)) :
    (t.files file).map VfsFile.pos = some 0 := by
  obtain ⟨⟨⟨rc', found⟩, s₁⟩, -, rest⟩ := Lib.bind_ok opened
  cases found with
  | none => cases rest
  | some address =>
    dsimp only at rest
    split at rest
    · cases rest
    · obtain ⟨node, -, rest⟩ := Lib.bind_ok rest
      cases rest
      simp

/-- A regular file that is open. -/
def RegularFile {M : Type} (s : Vfs M) (file : Nat) (inode : Fat32Inode) : Prop := ∃ pos, OpenAt s file inode pos

/-- A file is read in pieces or at once: if no read reports an error, the pieces are what the one
read delivers, and the position is always the number of bytes delivered so far. -/
theorem reads_in_pieces_agree {M : Type} {mem : Allocator M} {Owns : M → Multiset Block → Prop} {env : FsEnv} {s t : Vfs M}
    {blocks : Multiset Block} {path : List UInt8} {flags file : Nat} {rc index : Int} {inode : Fat32Inode}
    (accounts : Accounting mem Owns) (owns : Owns t.memory blocks)
    (opened : vfsOpen mem env s path flags = .ok ((rc, some file), t)) (regular : RegularFile t file inode)
    (mount : fat32Mount env.disk index = some inode.vol) (sector512 : inode.vol.bpb.bytesPerSector = 512)
    (small : inode.size < 2 ^ 32) (enough : inode.size < env.fuel) (calls : List (Bytes × Nat)) (buf : Bytes) :
    ∃ answers whole u, vfsReads mem env t file calls = .ok answers ∧
      vfsRead mem env t file buf (calls.map Prod.snd).sum = .ok (whole, u) ∧
      (∀ k answer, answers[k]? = some answer →
        (answer.2.files file).map VfsFile.pos = some (delivered (answers.take (k + 1))).length) ∧
      ((∀ answer ∈ answers, 0 ≤ answer.1.1) → 0 ≤ whole.1 → delivered answers = deliveredBy whole) := by
  have mounted := fat32Mount_mounted mount
  obtain ⟨pos, openAt⟩ := regular
  have start : pos = 0 := by
    obtain ⟨held, node, isOpen, rfl, -⟩ := openAt
    grind [vfsOpen_pos]
  subst start
  obtain ⟨answers, reads, pieces, places⟩ :=
    vfsReads_openAt accounts owns mounted sector512 small enough openAt (Nat.zero_le _) calls
  obtain ⟨whole, u, read, -, all, -⟩ :=
    vfsRead_openAt accounts owns mounted sector512 small enough openAt (Nat.zero_le _) buf (calls.map Prod.snd).sum
  refine ⟨answers, whole, u, reads, read, ?_, ?_⟩
  · intro k answer found
    obtain ⟨held, node, isOpen, place, -⟩ := places k answer found
    grind
  grind

def readEnv : FsEnv := ⟨sampleDir 512 oneFile 0, 1000, fun _ _ => 0⟩

def readMounted : Vfs Unit :=
  (Lib.outcome (0, vfsInit ()) (fat32VfsMount ample readEnv (vfsInit ()) (sampleVol 100 98) [0x2F])).2

/-- The state after the file `A` of 200 bytes was opened. -/
def readOpened : Vfs Unit :=
  (Lib.outcome ((0, none), readMounted) (vfsOpen ample readEnv readMounted [0x2F, 0x41] 0)).2

theorem readOpened_eq : vfsOpen ample readEnv readMounted [0x2F, 0x41] 0 = .ok ((0, some 0), readOpened) := by
  have first : (Lib.outcome ((0, none), readMounted) (vfsOpen ample readEnv readMounted [0x2F, 0x41] 0)).1 = (0, some 0) := by
    decide +kernel
  exact congrArg Except.ok (Prod.ext first rfl)

theorem reads_in_pieces_agree_sample : ∃ answers whole u,
    vfsReads ample readEnv readOpened 0 [(fun _ => 0, 100), (fun _ => 0, 0), (fun _ => 0, 150)] = .ok answers ∧
      vfsRead ample readEnv readOpened 0 (fun _ => 0) 250 = .ok (whole, u) ∧
      delivered answers = deliveredBy whole ∧ whole.1 = 200 := by
  have regular : RegularFile readOpened 0 ⟨sampleVol 100 98, 5, 200, 0x20, none⟩ :=
    ⟨0, ⟨1, 0, 0⟩, ⟨[0x61], vfsNodeFile, 200, some .fat32File, some ⟨sampleVol 100 98, 5, 200, 0x20, none⟩, some 0, none, none⟩,
      by decide +kernel, rfl, by decide +kernel, rfl, rfl⟩
  obtain ⟨answers, whole, u, reads, read, -, agree⟩ := reads_in_pieces_agree accounting_ample
    (show Uncounted readOpened.memory 0 from trivial) readOpened_eq regular
    (show fat32Mount readEnv.disk 0 = some (sampleVol 100 98) by decide +kernel) rfl (by decide) (by decide)
    [(fun _ => 0, 100), (fun _ => 0, 0), (fun _ => 0, 150)] fun _ => 0
  have fine : (vfsReads ample readEnv readOpened 0 [(fun _ => 0, 100), (fun _ => 0, 0), (fun _ => 0, 150)]).toOption.all
      (fun answers => answers.all fun answer => 0 ≤ answer.1.1) = true := by decide +kernel
  have length : (vfsRead ample readEnv readOpened 0 (fun _ => 0) 250).toOption.map (fun answer => answer.1.1) = some 200 := by
    decide +kernel
  rw [reads] at fine
  have read' : vfsRead ample readEnv readOpened 0 (fun _ => 0) 250 = .ok (whole, u) := read
  rw [read'] at length
  have all : whole.1 = 200 := Option.some.inj length
  refine ⟨answers, whole, u, reads, read, agree ?_ (by rw [all]; decide), all⟩
  intro answer member
  exact of_decide_eq_true (List.all_eq_true.mp fine answer member)

end Velox
