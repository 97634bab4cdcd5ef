import Procluster.MergedCells

/-!
The cells of an aggregator as a function of the trades it was fed. Each bin some trade
falls into has one cell with the two sums of its trades, in ascending order; neither
the order nor the repetition of trades has a part in it.
-/
namespace Aggregate
open KeyedFold

def feed (arith : Arithmetic) (a : Aggregator) (trades : List Trade) : Aggregator :=
  trades.foldl (fun a t => (processTradeBy arith a t).1) a

theorem feed_append_one (arith : Arithmetic) (a : Aggregator) (trades : List Trade) (t : Trade) :
    feed arith a (trades ++ [t]) = (processTradeBy arith (feed arith a trades) t).1 := by
  rw [feed, List.foldl_append]
  rfl

/-- What Cells and Flush may return: the map is read in any order and sorted by price. -/
structure Listed (a : Aggregator) (out : List ClusterCell) : Prop where
  cells : out.Perm (a.cells.map fun p => roundCell p.2)
  sorted : out.Pairwise fun c d => c.price ≤ d.price

theorem sorted_gather {Item : Type*} {key : Item → ℚ} {f : Item → Option ClusterCell → ClusterCell}
    {items : List Item} {cell : ℚ → ClusterCell} (priced : ∀ p, (cell p).price = p)
    (each : ∀ p c, find p (gather key f items) = some c → c = cell p) {out : List ClusterCell}
    (perm : out.Perm ((gather key f items).map fun p => roundCell p.2))
    (sorted : out.Pairwise fun c d => c.price ≤ d.price) :
    out = ((items.map key).toFinset.sort).map fun p => roundCell (cell p) := by
  have cells : (gather key f items).map (fun p => roundCell p.2) =
      (keys (gather key f items)).map fun p => roundCell (cell p) := by
    rw [keys, List.map_map]
    apply List.map_congr_left
    intro q hq
    simp only [Function.comp_apply, each _ _ (find_of_mem (gather_keys_nodup _ _ _) hq)]
  have bins : (keys (gather key f items)).Perm ((items.map key).toFinset.sort) := by
    refine (List.perm_ext_iff_of_nodup (gather_keys_nodup _ _ _) (Finset.sort_nodup _ _)).mpr ?_
    intro p
    rw [Finset.mem_sort, List.mem_toFinset, List.mem_map]
    exact mem_gather_keys key f items p
  have whole := (cells ▸ perm).trans (bins.map _)
  have prices : (((items.map key).toFinset.sort).map fun p => roundCell (cell p)).map
      ClusterCell.price = (items.map key).toFinset.sort := by
    simp [roundCell, priced, Function.comp_def]
  have ascending := (Finset.sortedLT_sort (items.map key).toFinset).pairwise
  rw [← prices] at ascending
  refine List.Perm.eq_of_pairwise ?_ sorted ((List.pairwise_map.mp ascending).imp le_of_lt) whole
  intro c d hc hd below above
  exact List.inj_on_of_nodup_map (f := ClusterCell.price) (by rw [prices]; exact Finset.sort_nodup _ _)
    (whole.mem_iff.mp hc) hd (le_antisymm below above)

def side (maker : Bool) (c : ClusterCell) : ℚ := if maker then c.bid else c.ask

section Running
variable (plus : ℚ → ℚ → ℚ) (bin : Trade → ℚ)

def sideFold (maker : Bool) (trades : List Trade) : ℚ :=
  ((trades.filter fun t => t.isBuyerMaker = maker).map Trade.qty).foldl plus 0

def runningSum (maker : Bool) (trades : List Trade) (p : ℚ) : ℚ :=
  sideFold plus maker (trades.filter fun t => bin t = p)

def cellBy (trades : List Trade) (p : ℚ) : ClusterCell :=
  ⟨p, runningSum plus bin true trades p, runningSum plus bin false trades p⟩

def bookBy (trades : List Trade) : List ClusterCell :=
  ((trades.map bin).toFinset.sort).map fun p => roundCell (cellBy plus bin trades p)

theorem sideFold_append_one (maker : Bool) (trades : List Trade) (t : Trade) :
    sideFold plus maker (trades ++ [t]) =
      if t.isBuyerMaker = maker then plus (sideFold plus maker trades) t.qty
      else sideFold plus maker trades := by
  unfold sideFold
  by_cases own : t.isBuyerMaker = maker <;> simp [List.filter_append, own]

theorem fold_addTradeBy {p : ℚ} {trades : List Trade} (own : ∀ t ∈ trades, bin t = p) :
    trades.foldl (fun cell t => some (addTradeBy plus (bin t) t cell)) none =
      if trades = [] then none else some ⟨p, sideFold plus true trades, sideFold plus false trades⟩ := by
  induction trades using List.reverseRecOn with
  | nil => rfl
  | append_singleton trades t ih =>
    have here : bin t = p := own t (by simp)
    have before := ih fun u hu => own u (by simp [hu])
    have appended : trades ++ [t] ≠ [] := by simp
    rw [List.foldl_append, before, if_neg appended, sideFold_append_one, sideFold_append_one]
    by_cases first : trades = []
    · subst first
      cases maker : t.isBuyerMaker <;> simp [addTradeBy, maker, here, sideFold]
    · cases maker : t.isBuyerMaker <;> simp [addTradeBy, maker, first]

theorem find_cellsOfBy {trades : List Trade} {p : ℚ} {cell : ClusterCell}
    (found : find p (cellsOfBy plus bin trades) = some cell) : cell = cellBy plus bin trades p := by
  have own : ∀ t ∈ trades.filter (fun t => bin t = p), bin t = p := by
    intro t ht
    simpa using (List.mem_filter.mp ht).2
  rw [cellsOfBy, find_gather, fold_addTradeBy plus bin own, Option.ite_none_left_eq_some] at found
  exact (Option.some.inj found.2).symm

theorem bookBy_prices (trades : List Trade) :
    (bookBy plus bin trades).map ClusterCell.price = (trades.map bin).toFinset.sort := by
  simp [bookBy, roundCell, cellBy, Function.comp_def]

theorem bookBy_ascending (trades : List Trade) :
    (bookBy plus bin trades).Pairwise fun c d => c.price < d.price := by
  have ascending := (Finset.sortedLT_sort (trades.map bin).toFinset).pairwise
  rw [← bookBy_prices plus] at ascending
  exact List.pairwise_map.mp ascending

theorem mem_bookBy {trades : List Trade} {c : ClusterCell} :
    c ∈ bookBy plus bin trades ↔
      c.price ∈ trades.map bin ∧ c = roundCell (cellBy plus bin trades c.price) := by
  simp only [bookBy, List.mem_map, Finset.mem_sort, List.mem_toFinset]
  constructor
  · rintro ⟨p, hit, rfl⟩
    exact ⟨hit, rfl⟩
  · rintro ⟨hit, same⟩
    exact ⟨c.price, hit, same.symm⟩

variable {plus bin}

theorem listed_bookBy {a : Aggregator} {trades : List Trade} (built : a.cells = cellsOfBy plus bin trades)
    {out : List ClusterCell} (listed : Listed a out) : out = bookBy plus bin trades := by
  have perm := listed.cells
  rw [built] at perm
  exact sorted_gather (fun _ => rfl) (fun _ _ found => find_cellsOfBy plus bin found) perm listed.sorted

theorem listed_currentCells (a : Aggregator) : Listed a a.currentCells :=
  ⟨List.perm_insertionSort _ _, List.pairwise_insertionSort _ _⟩

theorem currentCells_bookBy {a : Aggregator} {trades : List Trade}
    (built : a.cells = cellsOfBy plus bin trades) : a.currentCells = bookBy plus bin trades :=
  listed_bookBy built (listed_currentCells a)

end Running

section Book
variable (bin : Trade → ℚ)

def sideSum (maker : Bool) (trades : List Trade) (p : ℚ) : ℚ :=
  ((trades.filter fun t => bin t = p).map fun t => if t.isBuyerMaker = maker then t.qty else 0).sum

def cellAt (trades : List Trade) (p : ℚ) : ClusterCell :=
  ⟨p, sideSum bin true trades p, sideSum bin false trades p⟩

def book (trades : List Trade) : List ClusterCell :=
  ((trades.map bin).toFinset.sort).map fun p => roundCell (cellAt bin trades p)

theorem sideFold_exact (maker : Bool) (trades : List Trade) :
    sideFold (· + ·) maker trades =
      (trades.map fun t => if t.isBuyerMaker = maker then t.qty else 0).sum := by
  induction trades using List.reverseRecOn with
  | nil => rfl
  | append_singleton trades t ih =>
    rw [sideFold_append_one, ih, List.map_append, List.sum_append]
    split <;> simp_all

theorem bookBy_exact (trades : List Trade) : bookBy (· + ·) bin trades = book bin trades := by
  simp only [bookBy, book, cellBy, cellAt, runningSum, sideSum, sideFold_exact]

theorem book_prices (trades : List Trade) :
    (book bin trades).map ClusterCell.price = (trades.map bin).toFinset.sort := by
  rw [← bookBy_exact, bookBy_prices]

theorem book_ascending (trades : List Trade) :
    (book bin trades).Pairwise fun c d => c.price < d.price := by
  rw [← bookBy_exact]
  exact bookBy_ascending _ bin trades

theorem mem_book {trades : List Trade} {c : ClusterCell} :
    c ∈ book bin trades ↔ c.price ∈ trades.map bin ∧ c = roundCell (cellAt bin trades c.price) := by
  rw [← bookBy_exact, mem_bookBy]
  simp only [cellBy, cellAt, runningSum, sideSum, sideFold_exact]

theorem book_perm {trades others : List Trade} (perm : trades.Perm others) :
    book bin trades = book bin others := by
  have bins : (trades.map bin).toFinset = (others.map bin).toFinset :=
    List.toFinset_eq_of_perm _ _ (perm.map bin)
  have sums : ∀ maker, sideSum bin maker trades = sideSum bin maker others :=
    fun maker => funext fun p => ((perm.filter _).map _).sum_eq
  simp only [book, cellAt, bins, sums]

variable {bin}

theorem listed_book {a : Aggregator} {trades : List Trade} (built : a.cells = cellsOf bin trades)
    {out : List ClusterCell} (listed : Listed a out) : out = book bin trades :=
  (listed_bookBy built listed).trans (bookBy_exact bin trades)

theorem currentCells_book {a : Aggregator} {trades : List Trade}
    (built : a.cells = cellsOf bin trades) : a.currentCells = book bin trades :=
  listed_book built (listed_currentCells a)

end Book

def tradeBin (tickSize : ℚ) (comp : UInt32) (t : Trade) : ℚ := binPriceLow t.price tickSize comp

section Fed
variable {arith : Arithmetic} {tickSize : ℚ} {comp : UInt32}

def Arithmetic.tradeBin (arith : Arithmetic) (tickSize : ℚ) (comp : UInt32) (t : Trade) : ℚ :=
  arith.bin t.price tickSize comp

/-- The aggregator after the trades it accepted, in the order of their arrival. -/
structure Holds (arith : Arithmetic) (tickSize : ℚ) (comp : UInt32) (a : Aggregator)
    (trades : List Trade) : Prop where
  sized : a.tickSize = tickSize
  compressed : a.comp = comp
  cells : a.cells = cellsOfBy arith.plus (arith.tradeBin tickSize comp) trades
  seen : ∀ x, x ∈ a.seen ↔ x ∈ trades.map Trade.tradeID
  count : a.tradeCount = trades.length
  opened : ∀ t ∈ trades.head?, a.firstTradePrice = t.price
  closed : ∀ t ∈ trades.getLast?, a.lastTradePrice = t.price

theorem holds_new (arith : Arithmetic) (symbol market tf : String) (tickSize : ℚ) (comp : UInt32) :
    Holds arith tickSize comp (newAggregator symbol market tf tickSize comp) [] :=
  ⟨rfl, rfl, rfl, by simp [newAggregator], rfl, by simp, by simp⟩

theorem holds_process {a : Aggregator} {trades : List Trade} (holds : Holds arith tickSize comp a trades)
    {t : Trade} (new : t.tradeID ∉ trades.map Trade.tradeID) :
    Holds arith tickSize comp (processTradeBy arith a t).1 (trades ++ [t]) := by
  have unseen : t.tradeID ∉ a.seen := fun old => new ((holds.seen _).mp old)
  refine ⟨?_, ?_, ?_, ?_, ?_, ?_, ?_⟩
  · simp [processTradeBy, unseen, holds.sized]
  · simp [processTradeBy, unseen, holds.compressed]
  · rw [processTradeBy_cells unseen, cellsOfBy_append_one, holds.cells, holds.sized, holds.compressed,
      Arithmetic.tradeBin]
  · intro x
    rw [processTradeBy_seen_set, Finset.mem_insert, holds.seen, List.map_append, List.mem_append, or_comm,
      List.map_singleton, List.mem_singleton]
  · simp [processTradeBy, unseen, holds.count]
  · intro u first
    simp only [processTradeBy, unseen, ↓reduceIte, holds.count, List.length_eq_zero_iff]
    cases trades with
    | nil => simpa using congrArg Trade.price (Option.some.inj first)
    | cons v rest => exact holds.opened u first
  · intro u last
    rw [List.getLast?_append_of_ne_nil _ (List.cons_ne_nil t [])] at last
    obtain rfl := Option.some.inj last
    simp [processTradeBy, unseen]

theorem holds_feed {a : Aggregator} (start : Holds arith tickSize comp a []) (trades : List Trade) :
    Holds arith tickSize comp (feed arith a trades) (firsts Trade.tradeID trades) := by
  induction trades using List.reverseRecOn with
  | nil => exact start
  | append_singleton trades t ih =>
    have ids : t.tradeID ∈ (firsts Trade.tradeID trades).map Trade.tradeID ↔
        t.tradeID ∈ trades.map Trade.tradeID := mem_firsts_keys _ _ _
    rw [feed_append_one, firsts_append_one]
    by_cases old : t.tradeID ∈ trades.map Trade.tradeID
    · rw [processTradeBy_seen ((ih.seen _).mpr (ids.mpr old)), if_pos old, List.append_nil]
      exact ih
    · rw [if_neg old]
      exact holds_process ih fun inside => old (ids.mp inside)

theorem holds_book {a : Aggregator} {trades : List Trade} (holds : Holds exactly tickSize comp a trades) :
    a.cells = cellsOf (tradeBin tickSize comp) trades := holds.cells

end Fed

/-- The cells of a set of trades: one for each bin hit, with the rounded sums. -/
structure CellsOfSet (bin : Trade → ℚ) (trades : Finset Trade) (out : List ClusterCell) : Prop where
  ascending : out.Pairwise fun c d => c.price < d.price
  bins : ∀ p, p ∈ out.map ClusterCell.price ↔ ∃ t ∈ trades, bin t = p
  bids : ∀ c ∈ out, c.bid = roundHalfUp (∑ t ∈ trades with bin t = c.price ∧ t.isBuyerMaker, t.qty)
  asks : ∀ c ∈ out, c.ask = roundHalfUp (∑ t ∈ trades with bin t = c.price ∧ ¬ t.isBuyerMaker, t.qty)

theorem sideSum_toFinset (bin : Trade → ℚ) (maker : Bool) {trades : List Trade}
    (distinct : trades.Nodup) (p : ℚ) :
    sideSum bin maker trades p =
      ∑ t ∈ trades.toFinset with bin t = p ∧ t.isBuyerMaker = maker, t.qty := by
  rw [sideSum, ← List.sum_toFinset _ (distinct.filter _), List.toFinset_filter, ← Finset.filter_filter,
    ← Finset.sum_filter]
  simp

theorem book_of_set (bin : Trade → ℚ) {trades : List Trade} (distinct : trades.Nodup) :
    CellsOfSet bin trades.toFinset (book bin trades) := by
  refine ⟨book_ascending bin trades, ?_, ?_, ?_⟩
  · intro p
    rw [book_prices, Finset.mem_sort, List.mem_toFinset, List.mem_map]
    simp only [List.mem_toFinset]
  · intro c hc
    rw [((mem_book bin).mp hc).2]
    simp [roundCell, cellAt, sideSum_toFinset bin true distinct]
  · intro c hc
    rw [((mem_book bin).mp hc).2]
    simp [roundCell, cellAt, sideSum_toFinset bin false distinct]

/- Where equal ids mean equal trades, the first deliveries are the set of trades. -/
theorem firsts_of_ids {xs : List Trade}
    (ids : ∀ t ∈ xs, ∀ u ∈ xs, t.tradeID = u.tradeID → t = u) :
    (firsts Trade.tradeID xs).Nodup ∧ ∀ t, t ∈ firsts Trade.tradeID xs ↔ t ∈ xs :=
  ⟨(firsts_keys_nodup Trade.tradeID xs).of_map _, fun t => ⟨mem_of_firsts, fun inside =>
    mem_firsts inside fun u hu same => ids u hu t inside same⟩⟩

/-- Cells and Flush of two fresh aggregators that were fed the same set of trades return
    the same list, the cells of that set. -/
theorem cells_of_same_trades {xs ys : List Trade} (same : ∀ t, t ∈ xs ↔ t ∈ ys)
    (ids : ∀ t ∈ xs, ∀ u ∈ xs, t.tradeID = u.tradeID → t = u)
    (symbol market tf symbol' market' tf' : String) (tickSize : ℚ) (comp : UInt32) :
    let a := feed exactly (newAggregator symbol market tf tickSize comp) xs
    let b := feed exactly (newAggregator symbol' market' tf' tickSize comp) ys
    a.currentCells = b.currentCells ∧ (flush a).1 = (flush b).1 ∧ (flush a).1 = a.currentCells ∧
      CellsOfSet (tradeBin tickSize comp) xs.toFinset a.currentCells ∧
      ∀ out, (Listed a out → out = a.currentCells) ∧ (Listed b out → out = a.currentCells) := by
  intro a b
  have ids' : ∀ t ∈ ys, ∀ u ∈ ys, t.tradeID = u.tradeID → t = u :=
    fun t ht u hu => ids t ((same t).mpr ht) u ((same u).mpr hu)
  obtain ⟨distinct, members⟩ := firsts_of_ids ids
  obtain ⟨distinct', members'⟩ := firsts_of_ids ids'
  have heldA : a.cells = cellsOf (tradeBin tickSize comp) (firsts Trade.tradeID xs) :=
    holds_book (holds_feed (holds_new exactly symbol market tf tickSize comp) xs)
  have heldB : b.cells = cellsOf (tradeBin tickSize comp) (firsts Trade.tradeID ys) :=
    holds_book (holds_feed (holds_new exactly symbol' market' tf' tickSize comp) ys)
  have perm : (firsts Trade.tradeID xs).Perm (firsts Trade.tradeID ys) :=
    (List.perm_ext_iff_of_nodup distinct distinct').mpr fun t => by rw [members, members', same]
  have whole : (firsts Trade.tradeID xs).toFinset = xs.toFinset := by
    ext t
    rw [List.mem_toFinset, List.mem_toFinset, members]
  have bookA := currentCells_book heldA
  have bookB := currentCells_book heldB
  rw [← book_perm _ perm] at bookB
  refine ⟨bookA.trans bookB.symm, bookA.trans bookB.symm, rfl, ?_, ?_⟩
  · rw [bookA, ← whole]
    exact book_of_set _ distinct
  · intro out
    refine ⟨fun listed => (listed_book heldA listed).trans bookA.symm, fun listed => ?_⟩
    rw [listed_book heldB listed, ← book_perm _ perm, bookA]

/- Two trades of one bin and one of another, out of order and with a repetition. -/
theorem repeated_trades_same_cells :
    let t : Trade := ⟨1, 100, 3 / 2, 0, true⟩
    let u : Trade := ⟨2, 101, 1, 1, false⟩
    let v : Trade := ⟨3, 104, 2, 2, true⟩
    (flush (feed exactly (newAggregator "BTCUSDT" "futures" "1m" (1 / 10) 25) [v, t, u, t])).1 =
      (flush (feed exactly (newAggregator "BTCUSDT" "futures" "5m" (1 / 10) 25) [u, v, v, t])).1 := by
  intro t u v
  have same : ∀ w, w ∈ [v, t, u, t] ↔ w ∈ [u, v, v, t] := by
    intro w
    simp only [List.mem_cons, List.not_mem_nil, or_false]
    tauto
  exact (cells_of_same_trades same (by decide +kernel) _ _ _ _ _ _ _ _).2.1

end Aggregate
