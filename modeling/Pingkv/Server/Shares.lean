import Pingkv.Server.Files

/-! How the constructor of `kv_server`, which counts in `int`, shares the files
out over the servers. -/

namespace Pingkv

/-- The files `[low, low + count)` of one server. -/
structure Share where
  low : Int
  count : Int
  deriving DecidableEq, Repr

/-- A file number is one of the server's. -/
def Share.Owns (share : Share) (file : Int) : Prop := share.low ≤ file ∧ file < share.low + share.count

instance (share : Share) (file : Int) : Decidable (share.Owns file) := inferInstanceAs (Decidable (_ ∧ _))

namespace KvServer

/-- The loop that rounds `_local_file_count` up, over `int`; `none` if it takes
more turns than are given. -/
def roundUpInt (fileCount serverCount : Int) : Nat → Int → Option Int
  | 0, _ => none
  | fuel + 1, count =>
    if wrap 32 (count * serverCount) < fileCount then roundUpInt fileCount serverCount fuel (wrap 32 (count + 1))
    else some count

/-- `_fileno_low` and `_local_file_count` as the constructor leaves them. -/
def shareOf (fileCount serverCount serverId shared : Int) : Share :=
  { low := wrap 32 (serverId * shared)
    count := if serverId = wrap 32 (serverCount - 1)
      then wrap 32 (shared - wrap 32 (wrap 32 (shared * serverCount) - fileCount)) else shared }

def share (fuel : Nat) (fileCount serverCount serverId : Int) : Option Share :=
  (roundUpInt fileCount serverCount fuel (fileCount.tdiv serverCount)).map
    (shareOf fileCount serverCount serverId)

/-- Every constructor returns, and the files below `fileCount` are shared out. -/
def Partitioned (fileCount serverCount : Int) : Prop :=
  ∃ fuel, ∃ shares : Int → Share,
    (∀ serverId, 0 ≤ serverId → serverId < serverCount →
      share fuel fileCount serverCount serverId = some (shares serverId) ∧ 0 ≤ (shares serverId).count) ∧
    (∀ file, 0 ≤ file → file < fileCount →
      ∃! serverId, (0 ≤ serverId ∧ serverId < serverCount) ∧ (shares serverId).Owns file) ∧
    ∀ serverId file, 0 ≤ serverId → serverId < serverCount → (shares serverId).Owns file →
      0 ≤ file ∧ file < fileCount

/-- The share of a server but the last: the quotient, rounded up. -/
def quotient (fileCount serverCount : Int) : Int := (fileCount + serverCount - 1) / serverCount

variable {fileCount serverCount : Int}

/-- Where the loop ends, what the servers take together counts as enough. -/
theorem roundUpInt_enough {fuel : Nat} {count shared : Int}
    (ends : roundUpInt fileCount serverCount fuel count = some shared) :
    fileCount ≤ wrap 32 (shared * serverCount) := by
  induction fuel generalizing count with
  | zero => cases ends
  | succ fuel ih =>
    rw [roundUpInt] at ends
    split at ends
    · exact ih ends
    · rename_i enough
      obtain rfl := Option.some.inj ends
      exact Int.not_lt.mp enough

theorem quotient_covers (fileCount : Int) {serverCount : Int} (servers : 1 ≤ serverCount) :
    fileCount ≤ quotient fileCount serverCount * serverCount := by
  have division := Int.mul_ediv_add_emod (fileCount + serverCount - 1) serverCount
  have remainder := Int.emod_lt_of_pos (fileCount + serverCount - 1) (show 0 < serverCount by omega)
  rw [quotient, Int.mul_comm]
  omega

theorem quotient_le {shared : Int} (servers : 1 ≤ serverCount) (covers : fileCount ≤ shared * serverCount) :
    quotient fileCount serverCount ≤ shared := by
  have bound : quotient fileCount serverCount < shared + 1 := by
    apply Int.ediv_lt_of_lt_mul (by omega)
    rw [Int.add_mul, Int.one_mul]
    omega
  omega

theorem quotient_pos (files : 1 ≤ fileCount) (servers : 1 ≤ serverCount) : 0 < quotient fileCount serverCount := by
  have least := (Int.le_ediv_iff_mul_le (show 0 < serverCount by omega)).mpr
    (show 1 * serverCount ≤ fileCount + serverCount - 1 by omega)
  exact Int.lt_of_lt_of_le Int.one_pos least

/-- The loop starts at the quotient or one below it. -/
theorem tdiv_quotient (files : 0 ≤ fileCount) (servers : 1 ≤ serverCount) :
    (fileCount.tdiv serverCount = quotient fileCount serverCount) ∨
      (fileCount.tdiv serverCount + 1 = quotient fileCount serverCount ∧
        0 ≤ fileCount.tdiv serverCount * serverCount ∧ fileCount.tdiv serverCount * serverCount < fileCount) := by
  have start : fileCount.tdiv serverCount = fileCount / serverCount := Int.tdiv_eq_ediv_of_nonneg files
  have division := Int.mul_ediv_add_emod fileCount serverCount
  have below := Int.emod_lt_of_pos fileCount (show 0 < serverCount by omega)
  have nonneg := Int.emod_nonneg fileCount (show serverCount ≠ 0 by omega)
  have positive : 0 ≤ fileCount / serverCount := Int.ediv_nonneg files (by omega)
  rw [Int.mul_comm] at division
  rw [start]
  have least : quotient fileCount serverCount ≤ fileCount / serverCount + 1 := by
    apply quotient_le servers
    rw [Int.add_mul]
    omega
  have covers := quotient_covers fileCount servers
  have most : fileCount / serverCount ≤ quotient fileCount serverCount := Int.ediv_le_ediv (by omega) (by omega)
  by_cases same : fileCount / serverCount = quotient fileCount serverCount
  · exact .inl same
  · right
    refine ⟨by omega, Int.mul_nonneg positive (by omega), ?_⟩
    by_contra enough
    have := quotient_le servers (Int.not_lt.mp enough)
    omega

/-- Without overflow the loop ends at the quotient. -/
theorem roundUpInt_quotient (files : 1 ≤ fileCount) (servers : 1 ≤ serverCount)
    (fits : quotient fileCount serverCount * serverCount < 2 ^ 31) :
    roundUpInt fileCount serverCount 2 (fileCount.tdiv serverCount) = some (quotient fileCount serverCount) := by
  have covers := quotient_covers fileCount servers
  have last (fuel : Nat) : roundUpInt fileCount serverCount (fuel + 1) (quotient fileCount serverCount) =
      some (quotient fileCount serverCount) := by
    rw [roundUpInt, wrap_32_of_range (by omega) (by omega), if_neg (by omega)]
  have start : 0 ≤ fileCount.tdiv serverCount := Int.tdiv_nonneg (by omega) (by omega)
  rcases tdiv_quotient (show 0 ≤ fileCount by omega) servers with same | ⟨next, nonneg, short⟩
  · rw [same]
    exact last 1
  · have small : fileCount.tdiv serverCount * 1 ≤ fileCount.tdiv serverCount * serverCount :=
      Int.mul_le_mul_of_nonneg_left servers start
    have kept : wrap 32 (fileCount.tdiv serverCount * serverCount) = fileCount.tdiv serverCount * serverCount :=
      wrap_32_of_range (by omega) (by omega)
    have moved : wrap 32 (fileCount.tdiv serverCount + 1) = fileCount.tdiv serverCount + 1 :=
      wrap_32_of_range (by omega) (by omega)
    rw [roundUpInt, kept, if_pos short, moved, next]
    exact last 0

/-- Without overflow the rounded share is the one counted over unbounded integers. -/
theorem sharedCount_quotient (files : 1 ≤ fileCount) (servers : 1 ≤ serverCount) :
    sharedCount fileCount serverCount = quotient fileCount serverCount := by
  have covers := quotient_covers fileCount servers
  rcases tdiv_quotient (show 0 ≤ fileCount by omega) servers with same | ⟨next, _, short⟩
  · rw [sharedCount, same]
    exact roundUp_of_covers covers _
  · obtain ⟨fuel, turns⟩ : ∃ fuel, fileCount.toNat = fuel + 1 := ⟨fileCount.toNat - 1, by omega⟩
    rw [sharedCount, turns, roundUp, if_pos short, next]
    exact roundUp_of_covers covers _

/-- Where no product overflows, server `serverId` starts at `serverId` shares,
and the last one gives back what is too much. -/
theorem shareOf_eq {serverId shared : Int} (inside : 0 ≤ serverId ∧ serverId < serverCount)
    (files : 0 ≤ fileCount) (shared_ : 0 ≤ shared) (covers : fileCount ≤ shared * serverCount)
    (fits : shared * serverCount < 2 ^ 31) (servers : serverCount < 2 ^ 31) (few : shared < 2 ^ 31) :
    shareOf fileCount serverCount serverId shared =
      { low := serverId * shared
        count := if serverId = serverCount - 1 then fileCount - (serverCount - 1) * shared else shared } := by
  have low : 0 ≤ serverId * shared := Int.mul_nonneg inside.1 shared_
  have below : serverId * shared ≤ serverCount * shared := Int.mul_le_mul_of_nonneg_right (by omega) shared_
  have product : serverCount * shared = shared * serverCount := Int.mul_comm ..
  have last : shared - (shared * serverCount - fileCount) = fileCount - (serverCount - 1) * shared := by
    rw [Int.sub_mul, Int.one_mul]
    omega
  have own : 0 ≤ (serverCount - 1) * shared := Int.mul_nonneg (by omega) shared_
  have rest : (serverCount - 1) * shared = serverCount * shared - shared := by rw [Int.sub_mul, Int.one_mul]
  have plain : ∀ value ∈ [serverId * shared, serverCount - 1, shared * serverCount, shared * serverCount - fileCount,
      shared - (shared * serverCount - fileCount)], wrap 32 value = value := by
    simp only [List.forall_mem_cons]
    refine ⟨?_, ?_, ?_, ?_, ?_, List.forall_mem_nil _⟩ <;> exact wrap_32_of_range (by omega) (by omega)
  simp only [List.forall_mem_cons] at plain
  obtain ⟨start, final, product, surplus, share, _⟩ := plain
  rw [shareOf, start, final, product, surplus, share, last]

/-- Where nothing overflows, `share` is the files of `new`. -/
theorem share_eq_new {serverId : Int} (files : 1 ≤ fileCount) (servers : 1 ≤ serverCount ∧ serverCount < 2 ^ 31)
    (fits : quotient fileCount serverCount * serverCount < 2 ^ 31) (inside : 0 ≤ serverId ∧ serverId < serverCount) :
    share 2 fileCount serverCount serverId =
      some ⟨(new fileCount serverCount serverId).filenoLow, (new fileCount serverCount serverId).localFileCount⟩ := by
  have covers := quotient_covers fileCount servers.1
  have positive := quotient_pos files servers.1
  have small := Int.mul_le_mul_of_nonneg_left servers.1 (show 0 ≤ quotient fileCount serverCount by omega)
  rw [share, roundUpInt_quotient files servers.1 fits, Option.map_some,
    shareOf_eq inside (by omega) (by omega) covers fits servers.2 (by omega), new,
    sharedCount_quotient files servers.1]
  simp only [Option.some.injEq, Share.mk.injEq, true_and]
  split
  · rw [Int.sub_mul, Int.one_mul, Int.mul_comm]
    omega
  · rfl

/-- Whatever share the loop ends at, if the files are shared out the servers but
the last do not take more than there are. -/
theorem shared_fits {fuel : Nat} {shares : Int → Share} {shared : Int} (files : 1 ≤ fileCount ∧ fileCount < 2 ^ 31)
    (servers : 1 ≤ serverCount ∧ serverCount < 2 ^ 31)
    (ends : roundUpInt fileCount serverCount fuel (fileCount.tdiv serverCount) = some shared)
    (each : ∀ serverId, 0 ≤ serverId → serverId < serverCount →
      share fuel fileCount serverCount serverId = some (shares serverId) ∧ 0 ≤ (shares serverId).count)
    (within : ∀ serverId file, 0 ≤ serverId → serverId < serverCount → (shares serverId).Owns file →
      0 ≤ file ∧ file < fileCount) (several : 1 < serverCount) :
    0 < shared ∧ (serverCount - 1) * shared ≤ fileCount := by
  have lastId : wrap 32 (serverCount - 1) = serverCount - 1 := wrap_32_of_range (by omega) (by omega)
  have front (serverId : Int) (inside : 0 ≤ serverId) (below : serverId < serverCount - 1) :
      shares serverId = ⟨wrap 32 (serverId * shared), shared⟩ := by
    have found := (each serverId inside (by omega)).1
    rw [share, ends, Option.map_some] at found
    rw [← Option.some.inj found, shareOf, lastId, if_neg (by omega)]
  have positive : 0 < shared := by
    have nonneg := (each 0 (by omega) (by omega)).2
    rw [front 0 (by omega) (by omega)] at nonneg
    by_contra negative
    have zero : shared = 0 := by
      simp only at nonneg
      omega
    have enough := roundUpInt_enough ends
    rw [zero, Int.zero_mul, wrap_32_of_range (by omega) (by omega)] at enough
    omega
  refine ⟨positive, ?_⟩
  by_contra tooMuch
  -- The server in whose share the first number behind the files falls.
  have division := Int.mul_ediv_add_emod fileCount shared
  have nonneg := Int.emod_nonneg fileCount (show shared ≠ 0 by omega)
  have remainder := Int.emod_lt_of_pos fileCount positive
  have first : 0 ≤ fileCount / shared := Int.ediv_nonneg (by omega) (by omega)
  have below : fileCount / shared < serverCount - 1 := Int.ediv_lt_of_lt_mul positive (by omega)
  have low : 0 ≤ fileCount / shared * shared := Int.mul_nonneg first (by omega)
  rw [Int.mul_comm] at division
  have owned : (shares (fileCount / shared)).Owns fileCount := by
    rw [front _ first below, Share.Owns, wrap_32_of_range (by omega) (by omega)]
    simp only
    omega
  have := within _ _ first (by omega) owned
  omega

theorem fits_of_partitioned (files : 1 ≤ fileCount ∧ fileCount < 2 ^ 31)
    (servers : 1 ≤ serverCount ∧ serverCount < 2 ^ 31) (partitioned : Partitioned fileCount serverCount) :
    (serverCount - 1) * quotient fileCount serverCount ≤ fileCount ∧
      quotient fileCount serverCount * serverCount < 2 ^ 31 := by
  obtain ⟨fuel, shares, each, _, within⟩ := partitioned
  by_cases several : 1 < serverCount
  · have found := (each 0 (by omega) (by omega)).1
    obtain ⟨shared, ends, _⟩ := Option.map_eq_some_iff.mp found
    obtain ⟨positive, fits⟩ := shared_fits files servers ends each within several
    have enough := roundUpInt_enough ends
    have small : 1 * shared ≤ (serverCount - 1) * shared := Int.mul_le_mul_of_nonneg_right (by omega) (by omega)
    have total : shared * serverCount = (serverCount - 1) * shared + shared := by
      rw [Int.sub_mul, Int.one_mul, Int.mul_comm]
      omega
    have low : 0 ≤ shared * serverCount := Int.mul_nonneg (by omega) (by omega)
    have plain : shared * serverCount < 2 ^ 31 := by
      by_contra large
      rw [wrap_eq_bmod, Int.bmod] at enough
      omega
    rw [wrap_32_of_range (by omega) (by omega)] at enough
    have least := quotient_le servers.1 enough
    have front := Int.mul_le_mul_of_nonneg_left least (show 0 ≤ serverCount - 1 by omega)
    have whole := Int.mul_le_mul_of_nonneg_right least (show 0 ≤ serverCount by omega)
    omega
  · obtain rfl : serverCount = 1 := by omega
    rw [quotient]
    omega

theorem partitioned_of_fits (files : 1 ≤ fileCount ∧ fileCount < 2 ^ 31)
    (servers : 1 ≤ serverCount ∧ serverCount < 2 ^ 31)
    (front : (serverCount - 1) * quotient fileCount serverCount ≤ fileCount)
    (fits : quotient fileCount serverCount * serverCount < 2 ^ 31) : Partitioned fileCount serverCount := by
  have covers := quotient_covers fileCount servers.1
  have ends := roundUpInt_quotient files.1 servers.1 fits
  have least : quotient fileCount serverCount ≤ fileCount := by
    apply quotient_le servers.1
    have := Int.mul_le_mul_of_nonneg_left servers.1 (show 0 ≤ fileCount by omega)
    omega
  have positive := quotient_pos files.1 servers.1
  generalize quotient fileCount serverCount = shared at *
  have plain (serverId : Int) (inside : 0 ≤ serverId ∧ serverId < serverCount) :=
    shareOf_eq inside (show 0 ≤ fileCount by omega) (by omega) covers fits servers.2 (by omega)
  have total : shared * serverCount = (serverCount - 1) * shared + shared := by
    rw [Int.sub_mul, Int.one_mul, Int.mul_comm]
    omega
  -- What a server owns, in terms of its share and the number of files.
  have owns (serverId file : Int) (inside : 0 ≤ serverId ∧ serverId < serverCount) :
      (shareOf fileCount serverCount serverId shared).Owns file ↔
        serverId * shared ≤ file ∧ file < serverId * shared + shared ∧ file < fileCount := by
    rw [plain serverId inside, Share.Owns]
    by_cases last : serverId = serverCount - 1
    · subst last
      simp only [if_true]
      omega
    · have next : (serverId + 1) * shared ≤ (serverCount - 1) * shared :=
        Int.mul_le_mul_of_nonneg_right (by omega) (by omega)
      rw [Int.add_mul, Int.one_mul] at next
      simp only [last, if_false]
      omega
  refine ⟨2, fun serverId => shareOf fileCount serverCount serverId shared, ?_, ?_, ?_⟩
  · intro serverId lower upper
    refine ⟨by rw [share, ends, Option.map_some], ?_⟩
    simp only [plain serverId ⟨lower, upper⟩]
    split <;> omega
  · intro file lower upper
    have division := Int.mul_ediv_add_emod file shared
    have nonneg := Int.emod_nonneg file (show shared ≠ 0 by omega)
    have remainder := Int.emod_lt_of_pos file positive
    rw [Int.mul_comm] at division
    have inside : 0 ≤ file / shared ∧ file / shared < serverCount :=
      ⟨Int.ediv_nonneg lower (by omega), Int.ediv_lt_of_lt_mul positive (by rw [Int.mul_comm]; omega)⟩
    refine ⟨file / shared, ⟨inside, (owns _ _ inside).mpr ?_⟩, ?_⟩
    · omega
    · rintro serverId ⟨within, owned⟩
      obtain ⟨from_, to_, _⟩ := (owns _ _ within).mp owned
      apply Eq.symm
      apply Int.le_antisymm
      · have := Int.ediv_lt_of_lt_mul positive (show file < (serverId + 1) * shared by rw [Int.add_mul]; omega)
        omega
      · exact Int.le_ediv_of_mul_le positive from_
  · intro serverId file lower upper owned
    obtain ⟨from_, _, below⟩ := (owns _ _ ⟨lower, upper⟩).mp owned
    have := Int.mul_nonneg lower (show 0 ≤ shared by omega)
    omega

/-- The servers share the files out exactly where the rounded share fits into
the files once for each server but the last, and the shares together into `int`. -/
theorem partitioned_iff (files : 1 ≤ fileCount ∧ fileCount < 2 ^ 31)
    (servers : 1 ≤ serverCount ∧ serverCount < 2 ^ 31) :
    Partitioned fileCount serverCount ↔
      (serverCount - 1) * ((fileCount + serverCount - 1) / serverCount) ≤ fileCount ∧
        (fileCount + serverCount - 1) / serverCount * serverCount < 2 ^ 31 :=
  ⟨fits_of_partitioned files servers, fun ⟨front, fits⟩ => partitioned_of_fits files servers front fits⟩

theorem seven_files_partitioned : Partitioned 7 3 :=
  (partitioned_iff (by decide) (by decide)).mpr (by decide)

/-- Five files are shared out to four servers two at a time: the last one has to
give back three of its two. -/
theorem five_files_not_partitioned : ¬ Partitioned 5 4 ∧ share 2 5 4 3 = some ⟨6, -1⟩ ∧
    share 2 5 4 2 = some ⟨4, 2⟩ :=
  ⟨fun partitioned => absurd (fits_of_partitioned (by decide) (by decide) partitioned).1 (by decide),
    by decide +kernel, by decide +kernel⟩

end KvServer

end Pingkv
