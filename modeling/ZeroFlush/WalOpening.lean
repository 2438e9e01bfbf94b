import ZeroFlush.WalLogs

/-! # Closing and reopening the manager

`Close` empties every buffer. `Open` gives each partition of the table the newest generation
found in the directory. -/
namespace ZeroFlush.WalOpening
open FixedWidthCodec FiniteMaps WalFormat WalFiles PartitionedWal WalLogs

private theorem maxGenLoop_spec (part mx : ℕ) (all : List FileId) :
    let r := all.foldl (fun mx f => if f.1 = part ∧ f.2 > mx then f.2 else mx) mx
    mx ≤ r ∧ (∀ g, (part, g) ∈ all → g ≤ r) ∧ (r = mx ∨ (part, r) ∈ all) := by
  induction all generalizing mx with
  | nil => simp
  | cons f all ih =>
    simp only [List.foldl_cons]
    split_ifs with h
    · obtain ⟨hle, hall, hr⟩ := ih f.2
      refine ⟨by omega, ?_, ?_⟩
      · intro g hg
        rcases List.mem_cons.mp hg with rfl | hg
        · exact hle
        · exact hall g hg
      · right
        rcases hr with hr | hr
        · rw [hr]
          exact List.mem_cons.mpr (.inl (Prod.ext h.1.symm rfl))
        · exact List.mem_cons_of_mem _ hr
    · obtain ⟨hle, hall, hr⟩ := ih mx
      refine ⟨hle, ?_, hr.imp_right (List.mem_cons_of_mem _)⟩
      intro g hg
      rcases List.mem_cons.mp hg with rfl | hg
      · simp only [true_and, not_lt] at h
        omega
      · exact hall g hg

/-- `MaxGen` is the largest generation of the partition in the directory. -/
theorem le_maxGen {part g : ℕ} {all : List FileId} (h : (part, g) ∈ all) :
    g ≤ maxGen part all := (maxGenLoop_spec part 0 all).2.1 g h

theorem maxGen_eq_zero_or_mem (part : ℕ) (all : List FileId) :
    maxGen part all = 0 ∨ (part, maxGen part all) ∈ all := (maxGenLoop_spec part 0 all).2.2

theorem maxGen_mem {part g : ℕ} {all : List FileId} (h : (part, g) ∈ all) :
    (part, maxGen part all) ∈ all := by
  rcases maxGen_eq_zero_or_mem part all with hzero | hmem
  · have hle := le_maxGen h
    rw [hzero] at hle ⊢
    obtain rfl : g = 0 := by omega
    exact h
  · exact hmem

/-- `MaxGen` does not depend on the order of the directory. -/
theorem maxGen_congr (part : ℕ) {as bs : List FileId} (h : ∀ f, f ∈ as ↔ f ∈ bs) :
    maxGen part as = maxGen part bs := by
  have hle : ∀ {as bs : List FileId}, (∀ f, f ∈ as → f ∈ bs) → maxGen part as ≤ maxGen part bs := by
    intro as bs hsub
    cases maxGen_eq_zero_or_mem part as with
    | inl hzero => omega
    | inr hmem => exact le_maxGen (hsub _ hmem)
  exact le_antisymm (hle fun f => (h f).mp) (hle fun f => (h f).mpr)

theorem lookup_create (env : Env) (n target i : ℕ) :
    (PartitionedWalManager.create env n target).parts.lookup i =
      if i < n then some { partId := i } else none := by
  simp only [PartitionedWalManager.create]
  induction n with
  | zero => simp
  | succ n ih =>
    rw [List.range_succ, List.foldl_append]
    simp only [List.foldl_cons, List.foldl_nil, lookup_insert_eq]
    rw [ih]
    by_cases h1 : i = n
    · rw [if_pos h1, if_pos (by omega), h1]
    · by_cases h2 : i < n
      · rw [if_neg h1, if_pos h2, if_pos (by omega)]
      · rw [if_neg h1, if_neg h2, if_neg (by omega)]

theorem lookup_open (m : PartitionedWalManager) (i : ℕ) :
    m.open_.parts.lookup i = (m.parts.lookup i).map fun p =>
      if i < m.partitions then PartitionedWalManager.openPartition m.env i p else p := by
  simp [PartitionedWalManager.open_]

variable {m : PartitionedWalManager} {i : ℕ} {p : Partition}

theorem lookup_closePartition (h : HandlesOk m) (j : ℕ) (hp : (m.closePartition j).parts.lookup i
    = some p) (hb : i = j ∨ ∀ q, m.parts.lookup i = some q → q.buf = []) : p.buf = [] := by
  unfold PartitionedWalManager.closePartition at hp
  cases hj : m.parts.lookup j with
  | none =>
    rw [hj] at hp
    rcases hb with rfl | hb
    · simp [hj] at hp
    · exact hb p hp
  | some q =>
    simp only [hj, lookup_insert_eq] at hp
    split_ifs at hp with he
    · obtain rfl := Option.some.inj hp
      exact (h j q hj).flushBuf_buf
    · exact hb.resolve_left he p hp

theorem closeLoop_buf (h : HandlesOk m) (ids : List ℕ)
    (hp : (ids.foldl PartitionedWalManager.closePartition m).parts.lookup i = some p)
    (hb : i ∈ ids ∨ ∀ q, m.parts.lookup i = some q → q.buf = []) : p.buf = [] := by
  induction ids generalizing m with
  | nil => exact hb.resolve_left (by simp) p hp
  | cons j ids ih =>
    refine ih (handlesOk_closePartition h j) hp ?_
    by_cases hi : i ∈ ids
    · exact .inl hi
    · right
      intro q hq
      refine lookup_closePartition h j hq ?_
      exact hb.imp_left fun hmem => (List.mem_cons.mp hmem).resolve_right hi

theorem lookup_closePartition_isSome (m : PartitionedWalManager) (i j : ℕ) :
    ((m.closePartition j).parts.lookup i).isSome = (m.parts.lookup i).isSome := by
  unfold PartitionedWalManager.closePartition
  cases hj : m.parts.lookup j with
  | none => rfl
  | some q =>
    simp only [lookup_insert_eq]
    split_ifs with he
    · subst he
      simp [hj]
    · rfl

theorem lookup_closeLoop_isSome (m : PartitionedWalManager) (ids : List ℕ) (i : ℕ) :
    ((ids.foldl PartitionedWalManager.closePartition m).parts.lookup i).isSome =
      (m.parts.lookup i).isSome := by
  induction ids generalizing m with
  | nil => rfl
  | cons j ids ih => exact (ih (m.closePartition j)).trans (lookup_closePartition_isSome m i j)

/-- `Close` leaves nothing in a buffer. -/
theorem buffered_close (h : HandlesOk m) (f : FileId) : buffered m.close.parts f = [] := by
  cases hp : m.close.parts.lookup f.1 with
  | none => simp [buffered, hp]
  | some p =>
    have hsome : (m.parts.lookup f.1).isSome := by
      rw [← lookup_closeLoop_isSome m m.parts.keys]
      exact Option.isSome_iff_exists.mpr ⟨p, hp⟩
    have hkey : f.1 ∈ m.parts.keys := AList.mem_keys.mp (AList.lookup_isSome.mp hsome)
    simp [buffered, hp, closeLoop_buf h m.parts.keys hp (.inl hkey)]

/-- After `Close` the files hold the whole logs. -/
theorem content_close (h : HandlesOk m) (f : FileId) : m.close.env.content f = log m f := by
  have hlog := log_close h f
  rwa [log, buffered_close h, List.append_nil] at hlog

/-- `Close` neither makes nor removes a file. -/
theorem exists?_close (m : PartitionedWalManager) (f : FileId) :
    m.close.env.exists? f = m.env.exists? f := by
  refine List.foldlRecOn (motive := fun n : PartitionedWalManager => n.env.exists? f = m.env.exists? f) _ _ rfl ?_
  intro n hn i _
  rw [PartitionedWalManager.closePartition]
  cases n.parts.lookup i with
  | none => exact hn
  | some p => simpa using hn

@[simp] theorem partitions_closeLoop (m : PartitionedWalManager) (ids : List ℕ) :
    (ids.foldl PartitionedWalManager.closePartition m).partitions = m.partitions := by
  induction ids generalizing m with
  | nil => rfl
  | cons j ids ih =>
    rw [List.foldl_cons, ih]
    unfold PartitionedWalManager.closePartition
    split <;> rfl

theorem openPartition_buf (env : Env) (i : ℕ) (p : Partition) :
    (PartitionedWalManager.openPartition env i p).buf = [] := by
  simp only [PartitionedWalManager.openPartition]
  split_ifs <;> rfl

/-- Partitions that were just opened have no write handle. -/
theorem handleOk_openPartition (env : Env) (i : ℕ) :
    HandleOk env i (PartitionedWalManager.openPartition env i { partId := i }) := by
  simp only [PartitionedWalManager.openPartition]
  split_ifs <;> exact ⟨rfl, by simp, by simp, by simp⟩

/-- What a crash leaves: a new manager over the files that survived. -/
def restart (m : PartitionedWalManager) (cut : FileId → ℕ) : PartitionedWalManager :=
  (PartitionedWalManager.create (m.env.crash cut) m.partitions m.partitionTargetBytes).open_

theorem lookup_openCreate (env : Env) (n target i : ℕ) :
    (PartitionedWalManager.create env n target).open_.parts.lookup i =
      if i < n then some (PartitionedWalManager.openPartition env i { partId := i })
      else none := by
  have henv : (PartitionedWalManager.create env n target).env = env := rfl
  have hn : (PartitionedWalManager.create env n target).partitions = n := rfl
  rw [lookup_open, lookup_create, henv, hn]
  split_ifs <;> simp_all

theorem handlesOk_openCreate (env : Env) (n target : ℕ) :
    HandlesOk (PartitionedWalManager.create env n target).open_ := by
  intro i p hp
  rw [lookup_openCreate] at hp
  split_ifs at hp
  obtain rfl := Option.some.inj hp
  exact handleOk_openPartition env i

theorem buffered_openCreate (env : Env) (n target : ℕ) (f : FileId) :
    buffered (PartitionedWalManager.create env n target).open_.parts f = [] := by
  unfold buffered
  rw [lookup_openCreate]
  split_ifs with h
  · simp [openPartition_buf]
  · rfl

theorem lookup_reopen (m : PartitionedWalManager) (i : ℕ) :
    m.reopen.parts.lookup i = if i < m.partitions then
      some (PartitionedWalManager.openPartition m.close.env i { partId := i }) else none :=
  lookup_openCreate _ _ _ i

theorem handlesOk_reopen (m : PartitionedWalManager) : HandlesOk m.reopen :=
  handlesOk_openCreate _ _ _

theorem handlesOk_restart (m : PartitionedWalManager) (cut : FileId → ℕ) :
    HandlesOk (restart m cut) := handlesOk_openCreate _ _ _

theorem buffered_reopen (m : PartitionedWalManager) (f : FileId) :
    buffered m.reopen.parts f = [] := buffered_openCreate _ _ _ f

theorem buffered_restart (m : PartitionedWalManager) (cut : FileId → ℕ) (f : FileId) :
    buffered (restart m cut).parts f = [] := buffered_openCreate _ _ _ f

@[simp] theorem env_restart (m : PartitionedWalManager) (cut : FileId → ℕ) :
    (restart m cut).env = m.env.crash cut := rfl

@[simp] theorem env_reopen (m : PartitionedWalManager) : m.reopen.env = m.close.env := rfl

@[simp] theorem partitions_reopen (m : PartitionedWalManager) :
    m.reopen.partitions = m.partitions := rfl

theorem log_reopen (h : HandlesOk m) (f : FileId) : log m.reopen f = log m f := by
  rw [log, buffered_reopen, List.append_nil, env_reopen, content_close h]

/-- The files of the partition `i` in the directory. -/
theorem any_listFiles_iff (env : Env) (i : ℕ) :
    env.listFiles.any (fun f => f.1 == i) = true ↔ ∃ g, env.exists? (i, g) = true := by
  rw [List.any_eq_true]
  constructor
  · rintro ⟨⟨j, g⟩, hmem, hj⟩
    obtain rfl : j = i := by simpa using hj
    exact ⟨g, Env.mem_listFiles.mp hmem⟩
  · rintro ⟨g, hg⟩
    exact ⟨(i, g), Env.mem_listFiles.mpr hg, by simp⟩

end ZeroFlush.WalOpening
