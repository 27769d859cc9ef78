import HostServices.Bytes.Records
import Mathlib.Data.List.Defs
import Mathlib.Data.List.TakeWhile

/-!
# Where records are cut

The records of some bytes hold their zero-free segments, each cut into pieces that fill the room of
the buffer, but for the last one of a segment (`bodies`). The cutter goes byte by byte instead and
never looks back further than to the body that it holds. `flush_foldl_feed` joins the two: what is
handed out from any state on are the bodies of the bytes held and those still to come.

Whatever is said of the bodies goes by one induction along the bytes (`bodies_induction`): a zero
byte is left out, and a body is taken off the front which is full unless a zero byte or the end
comes behind it. So nothing is lost but the zero bytes (`flatten_bodies`), and each body has its place in
the bytes, with the earlier bodies cut from what comes before it and the later ones from what comes
behind (`exists_of_bodies_eq`). `cutRecords_exact` says this of the records, and what becomes of the
buffer.
-/

namespace HostServices

/-! ### Pieces of a list -/

section Chunks

variable {α : Type} {n : Nat}

theorem toChunks_cons (hn : 0 < n) (x : α) (l : List α) :
    (x :: l).toChunks n = List.toChunks.go n l #[x] #[] := by
  cases n with
  | zero => exact absurd hn (Nat.lt_irrefl 0)
  | succ n => rfl

/-- The pieces that are finished stand in front of those to come. -/
theorem toChunks_go_append (l : List α) (piece : Array α) (pieces : Array (List α)) :
    List.toChunks.go n l piece pieces = pieces.toList ++ List.toChunks.go n l piece #[] := by
  induction l generalizing piece pieces with
  | nil => simp [List.toChunks.go]
  | cons x l ih =>
    rw [List.toChunks.go, List.toChunks.go]
    split
    · -- the piece is full, so it is finished on both sides
      rw [ih, ih _ (#[].push _), Array.toList_push, List.append_assoc]
      rfl
    · exact ih _ _

/-- The piece under way is filled up first. -/
theorem toChunks_go_eq (hn : 0 < n) (l : List α) (piece : Array α) (hpiece : piece.size ≤ n) :
    List.toChunks.go n l piece #[] =
      (piece.toList ++ l).take n :: ((piece.toList ++ l).drop n).toChunks n := by
  have hlength : piece.toList.length = piece.size := Array.length_toList
  induction l generalizing piece with
  | nil =>
    rw [List.append_nil, List.take_of_length_le (by omega), List.drop_eq_nil_of_le (by omega)]
    rfl
  | cons x l ih =>
    rw [List.toChunks.go]
    split
    · -- the element starts a piece of its own
      rename_i hfull
      have hsize : piece.toList.length = n := hlength.trans (eq_of_beq hfull)
      rw [toChunks_go_append, List.take_left' hsize, List.drop_left' hsize, toChunks_cons hn]
      rfl
    · -- the element joins the piece under way
      rename_i hroom
      have hlt : piece.size < n := by
        have := ne_of_beq_false (Bool.of_not_eq_true hroom)
        omega
      have hpush : (piece.push x).toList ++ l = piece.toList ++ x :: l := by
        rw [Array.toList_push, List.append_assoc, List.singleton_append]
      rw [ih _ (by rw [Array.size_push]; exact hlt) Array.length_toList, hpush]

/-- The first piece is full if there is enough, and the others are the pieces of the rest. -/
theorem toChunks_eq (hn : 0 < n) {l : List α} (hl : l ≠ []) :
    l.toChunks n = l.take n :: (l.drop n).toChunks n := by
  cases l with
  | nil => exact absurd rfl hl
  | cons x l =>
    rw [toChunks_cons hn, toChunks_go_eq hn l #[x] hn]
    rfl

/-- A piece is taken off the front if it is full or nothing comes behind it. -/
theorem toChunks_append {piece rest : List α} (hpiece : piece ≠ []) (hle : piece.length ≤ n)
    (hrest : piece.length < n → rest = []) :
    (piece ++ rest).toChunks n = piece :: rest.toChunks n := by
  have hn : 0 < n := Nat.lt_of_lt_of_le (List.length_pos_iff.2 hpiece) hle
  rw [toChunks_eq hn (by simp [hpiece])]
  obtain hlt | hfull := Nat.lt_or_eq_of_le hle
  · rw [hrest hlt, List.append_nil, List.take_of_length_le hle, List.drop_eq_nil_of_le hle]
  · rw [List.take_left' hfull, List.drop_left' hfull]

end Chunks

/-! ### The bodies of records -/

/-- The bodies of the records of some bytes: the zero-free segments, in pieces of `room` bytes. -/
def bodies (room : Nat) (bytes : Bytes) : List Bytes :=
  (bytes.splitOn 0).flatMap fun segment => segment.toChunks room

section Bodies

variable {room : Nat} {body rest : Bytes}

@[simp] theorem bodies_nil (room : Nat) : bodies room [] = [] := rfl

/-- No record goes over a zero byte. -/
theorem bodies_append_zero (room : Nat) (a b : Bytes) :
    bodies room (a ++ 0 :: b) = bodies room a ++ bodies room b := by
  rw [bodies, List.splitOn_append_cons_self, List.flatMap_append]
  rfl

theorem bodies_zero_cons (room : Nat) (rest : Bytes) : bodies room (0 :: rest) = bodies room rest :=
  bodies_append_zero room [] rest

theorem splitOn_append_of_notMem (h : 0 ∉ body) (rest : Bytes) :
    (body ++ rest).splitOn 0 = (rest.splitOn 0).modifyHead (body ++ ·) := by
  induction body with
  | nil =>
    -- nothing is put in front of the first segment
    show rest.splitOn 0 = (rest.splitOn 0).modifyHead id
    rw [List.modifyHead_id, id]
  | cons b body ih =>
    obtain ⟨hb, hbody⟩ := not_or.1 (mt List.mem_cons.2 h)
    rw [List.cons_append, List.splitOn_cons_eq_if_modifyHead, if_neg (by simpa using Ne.symm hb),
      ih hbody, List.modifyHead_modifyHead]
    rfl

/-- A body is taken off the front if it is full, or if a zero byte or the end comes behind it. -/
theorem bodies_append (hbody : body ≠ []) (hzero : 0 ∉ body) (hle : body.length ≤ room)
    (hend : body.length < room → rest = [] ∨ rest.head? = some 0) :
    bodies room (body ++ rest) = body :: bodies room rest := by
  obtain ⟨segment, segments, hsplit⟩ := List.exists_cons_of_ne_nil (List.splitOn_ne_nil 0 rest)
  -- what is left of the segment is nothing where a zero byte or the end comes behind the body
  have hsegment : body.length < room → segment = [] := by
    intro hlt
    obtain rfl | hhead := hend hlt
    · exact (List.cons.inj hsplit).1.symm
    · obtain ⟨later, rfl⟩ := List.head?_eq_some_iff.1 hhead
      rw [List.splitOn_cons_eq_if_modifyHead, if_pos (beq_self_eq_true _)] at hsplit
      exact (List.cons.inj hsplit).1.symm
  calc bodies room (body ++ rest)
      = (body ++ segment).toChunks room ++ segments.flatMap (·.toChunks room) := by
        rw [bodies, splitOn_append_of_notMem hzero, hsplit, List.modifyHead_cons,
          List.flatMap_cons]
    _ = body :: (segment.toChunks room ++ segments.flatMap (·.toChunks room)) := by
        rw [toChunks_append hbody hle hsegment, List.cons_append]
    _ = body :: bodies room rest := by rw [bodies, hsplit, List.flatMap_cons]

/-- A full body is cut off, whatever comes behind it. -/
theorem bodies_append_of_full (hroom : 0 < room) (hzero : 0 ∉ body) (hfull : body.length = room)
    (rest : Bytes) : bodies room (body ++ rest) = bodies room body ++ bodies room rest := by
  have hbody : body ≠ [] := List.ne_nil_of_length_pos (hfull ▸ hroom)
  have hcut : ∀ rest, bodies room (body ++ rest) = body :: bodies room rest := fun rest =>
    bodies_append hbody hzero hfull.le fun hlt => absurd hfull (Nat.ne_of_lt hlt)
  calc bodies room (body ++ rest) = [body] ++ bodies room rest := hcut rest
    _ = bodies room body ++ bodies room rest := by
      rw [← List.append_nil body, hcut [], List.append_nil, bodies_nil]

/-- Bytes that do not start with a zero byte start with a body. -/
theorem exists_body (hroom : 0 < room) {b : UInt8} (hb : b ≠ 0) (bytes : Bytes) :
    ∃ body rest, b :: bytes = body ++ rest ∧ body ≠ [] ∧ 0 ∉ body ∧ body.length ≤ room ∧
      (body.length < room → rest = [] ∨ rest.head? = some 0) := by
  -- the body ends where the room does, or with the first segment
  let segment := (b :: bytes).takeWhile (· ≠ 0)
  let later := (b :: bytes).dropWhile (· ≠ 0)
  have hsegment : segment = b :: bytes.takeWhile (· ≠ 0) :=
    List.takeWhile_cons_of_pos (decide_eq_true hb)
  refine ⟨segment.take room, segment.drop room ++ later, ?_, ?_, ?_, List.length_take_le _ _, ?_⟩
  · calc b :: bytes = segment ++ later := List.takeWhile_append_dropWhile.symm
      _ = segment.take room ++ (segment.drop room ++ later) := by
        rw [← List.append_assoc, List.take_append_drop]
  · rw [hsegment]
    exact mt List.take_eq_nil_iff.1 (not_or.2 ⟨Nat.ne_of_gt hroom, List.cons_ne_nil _ _⟩)
  · intro hzero
    have hne := List.mem_takeWhile_imp (List.mem_of_mem_take hzero)
    exact absurd rfl (of_decide_eq_true hne)
  · -- a body that leaves room is the whole segment, so that a zero byte or the end is next
    intro hshort
    have hlength : segment.length ≤ room := by
      rw [List.length_take] at hshort
      omega
    rw [List.drop_eq_nil_of_le hlength, List.nil_append]
    have hhead := List.head?_dropWhile_not (· ≠ 0) (b :: bytes)
    cases hlater : later with
    | nil => exact .inl rfl
    | cons c later' =>
      rw [show (b :: bytes).dropWhile (· ≠ 0) = c :: later' from hlater] at hhead
      exact .inr (congrArg some (by simpa using hhead))

/-- Bytes are a zero byte or a body, and the bytes behind it. -/
theorem bodies_induction (hroom : 0 < room) {motive : Bytes → Prop} (nil : motive [])
    (zero : ∀ rest, motive rest → motive (0 :: rest))
    (append : ∀ body rest, body ≠ [] → 0 ∉ body → body.length ≤ room →
      (body.length < room → rest = [] ∨ rest.head? = some 0) → motive rest → motive (body ++ rest))
    (bytes : Bytes) : motive bytes := by
  -- a body takes off several bytes at once, so the induction is on the length
  induction hlength : bytes.length using Nat.strongRecOn generalizing bytes with
  | ind length ih =>
    cases bytes with
    | nil => exact nil
    | cons b bytes =>
      by_cases hb : b = 0
      · subst hb
        exact zero bytes (ih bytes.length (hlength ▸ Nat.lt_succ_self _) bytes rfl)
      · obtain ⟨body, rest, hbytes, hbody, hzero, hle, hend⟩ := exists_body hroom hb bytes
        rw [hbytes] at hlength ⊢
        rw [List.length_append] at hlength
        have hpos : 0 < body.length := List.length_pos_iff.2 hbody
        exact append body rest hbody hzero hle hend (ih rest.length (by omega) rest rfl)

/-- Nothing but the zero bytes is lost. -/
theorem flatten_bodies (hroom : 0 < room) (bytes : Bytes) :
    (bodies room bytes).flatten = bytes.filter (· ≠ 0) := by
  induction bytes using bodies_induction hroom with
  | nil => rfl
  | zero rest ih => rw [bodies_zero_cons, ih, List.filter_cons_of_neg (by simp)]
  | append body rest hbody hzero hle hend ih =>
    have hkept : body.filter (· ≠ 0) = body :=
      List.filter_eq_self.2 fun b hb => decide_eq_true (ne_of_mem_of_not_mem hb hzero)
    rw [bodies_append hbody hzero hle hend, List.flatten_cons, ih, List.filter_append, hkept]

/-- A body has its place in the bytes: the earlier bodies are cut from what comes before it, and the
later ones from what comes behind it, where it ends for a reason. -/
theorem exists_of_bodies_eq (hroom : 0 < room) {bytes : Bytes} {before after : List Bytes}
    (h : bodies room bytes = before ++ body :: after) :
    body ≠ [] ∧ 0 ∉ body ∧ body.length ≤ room ∧
      ∃ a b, bytes = a ++ body ++ b ∧ bodies room a = before ∧ bodies room b = after ∧
        (body.length < room → b = [] ∨ b.head? = some 0) := by
  induction bytes using bodies_induction hroom generalizing before with
  | nil => simp at h
  | zero rest ih =>
    rw [bodies_zero_cons] at h
    obtain ⟨hbody, hzero, hle, a, b, rfl, ha, hb, hend⟩ := ih h
    exact ⟨hbody, hzero, hle, 0 :: a, b, rfl, (bodies_zero_cons room a).trans ha, hb, hend⟩
  | append first rest hfirst hzero hle hend ih =>
    rw [bodies_append hfirst hzero hle hend] at h
    cases before with
    | nil =>
      obtain ⟨rfl, rfl⟩ := List.cons.inj h
      exact ⟨hfirst, hzero, hle, [], rest, rfl, rfl, rfl, hend⟩
    | cons first' before =>
      rw [List.cons_append] at h
      obtain ⟨rfl, hlater⟩ := List.cons.inj h
      obtain ⟨hbody, hzero', hle', a, b, rfl, ha, hb, hend'⟩ := ih hlater
      refine ⟨hbody, hzero', hle', first ++ a, b, by simp, ?_, hb, hend'⟩
      -- what comes behind the first body starts with what comes before this one
      have hbefore : first.length < room → a = [] ∨ a.head? = some 0 := by
        intro hlt
        cases a with
        | nil => exact .inl rfl
        | cons c a => exact .inr (by simpa using hend hlt)
      rw [bodies_append hfirst hzero hle hbefore, ha]

end Bodies

/-! ### The buffer -/

/-- A buffer with a record written over its start. -/
def overwrite (buffer record : Bytes) : Bytes :=
  record ++ buffer.drop record.length

theorem length_overwrite {buffer record : Bytes} (h : record.length ≤ buffer.length) :
    (overwrite buffer record).length = buffer.length := by
  rw [overwrite, List.length_append, List.length_drop]
  omega

/-- Records that fit leave the buffer its length. -/
theorem length_foldl_overwrite {buffer : Bytes} {records : List Bytes}
    (h : ∀ r ∈ records, r.length ≤ buffer.length) :
    (records.foldl overwrite buffer).length = buffer.length := by
  induction records generalizing buffer with
  | nil => rfl
  | cons r records ih =>
    have hlength := length_overwrite (h r List.mem_cons_self)
    rw [List.foldl_cons, ← hlength]
    exact ih fun r' hr' => hlength ▸ h r' (List.mem_cons_of_mem r hr')

/-! ### The cutter -/

namespace RecordCutter

/-- Writes a record over the buffer and hands it out. -/
def handOut (c : RecordCutter) (record : Bytes) : RecordCutter :=
  ⟨overwrite c.buffer record, [], c.cuts ++ [⟨record, overwrite c.buffer record⟩]⟩

variable {c : RecordCutter} {room : Nat}

theorem flush_of_held_eq_nil (h : c.held = []) : c.flush = c :=
  if_pos h

theorem flush_of_held_ne_nil (h : c.held ≠ []) : c.flush = c.handOut (c.held ++ [0]) :=
  if_neg h

theorem feed_zero (c : RecordCutter) : c.feed 0 = c.flush :=
  if_pos rfl

@[simp] theorem held_flush (c : RecordCutter) : c.flush.held = [] := by
  by_cases h : c.held = []
  · rw [flush_of_held_eq_nil h, h]
  · rw [flush_of_held_ne_nil h]
    rfl

theorem length_buffer_flush (h : c.held.length < c.buffer.length) :
    c.flush.buffer.length = c.buffer.length := by
  by_cases hheld : c.held = []
  · rw [flush_of_held_eq_nil hheld]
  · rw [flush_of_held_ne_nil hheld]
    apply length_overwrite
    rw [List.length_append]
    exact h

/-- A byte that fills the room ends the record. -/
theorem feed_of_full {b : UInt8} (hb : b ≠ 0) (h : c.buffer.length ≤ c.held.length + 2) :
    c.feed b = { c with held := c.held ++ [b] }.flush := by
  have hfull : c.buffer.length ≤ (c.held ++ [b]).length + 1 := by
    rw [List.length_append]
    exact h
  rw [feed, if_neg hb]
  exact if_pos hfull

theorem feed_of_room {b : UInt8} (hb : b ≠ 0) (h : c.held.length + 2 < c.buffer.length) :
    c.feed b = { c with held := c.held ++ [b] } := by
  have hroom : ¬c.buffer.length ≤ (c.held ++ [b]).length + 1 := by
    rw [List.length_append]
    exact Nat.not_le.2 h
  rw [feed, if_neg hb]
  exact if_neg hroom

/-- The record of the body under way is handed out. -/
theorem flush_eq (hzero : 0 ∉ c.held) (hheld : c.held.length ≤ room) :
    c.flush = ((bodies room c.held).map (· ++ [0])).foldl handOut { c with held := [] } := by
  by_cases h : c.held = []
  · rw [flush_of_held_eq_nil h, h]
    exact congrArg (RecordCutter.mk c.buffer · c.cuts) h
  · have hbodies : bodies room (c.held ++ []) = [c.held] :=
      bodies_append h hzero hheld fun _ => .inl rfl
    rw [List.append_nil] at hbodies
    rw [flush_of_held_ne_nil h, hbodies]
    rfl

/-- **What is handed out are the bodies of the bytes held and those to come.** -/
theorem flush_foldl_feed (bytes : Bytes) (hbuffer : c.buffer.length = room + 1)
    (hzero : 0 ∉ c.held) (hheld : c.held.length < room) :
    (bytes.foldl feed c).flush =
      ((bodies room (c.held ++ bytes)).map (· ++ [0])).foldl handOut { c with held := [] } := by
  induction bytes generalizing c with
  | nil =>
    rw [List.append_nil]
    exact flush_eq hzero (Nat.le_of_lt hheld)
  | cons b bytes ih =>
    have hroom : 0 < room := Nat.zero_lt_of_lt hheld
    -- once the body under way is flushed, the rest is cut like bytes of its own
    have hflushed : ∀ d : RecordCutter, d.buffer.length = room + 1 → 0 ∉ d.held →
        d.held.length ≤ room → (bytes.foldl feed d.flush).flush =
          ((bodies room d.held ++ bodies room bytes).map (· ++ [0])).foldl handOut
            { d with held := [] } := by
      intro d hd hdzero hdheld
      have hlength : d.flush.buffer.length = room + 1 := by
        rw [length_buffer_flush (by omega), hd]
      have hempty : { d.flush with held := [] } = d.flush :=
        congrArg (RecordCutter.mk d.flush.buffer · d.flush.cuts) (held_flush d).symm
      rw [ih hlength (by simp) (by simpa using hroom), held_flush, List.nil_append, hempty,
        flush_eq hdzero hdheld, List.map_append, List.foldl_append]
    by_cases hb : b = 0
    · subst hb
      rw [List.foldl_cons, feed_zero, hflushed c hbuffer hzero (Nat.le_of_lt hheld),
        bodies_append_zero]
    · have hheld' : (c.held ++ [b]).length = c.held.length + 1 := List.length_append
      have hzero' : 0 ∉ c.held ++ [b] := by
        simpa [hzero] using Ne.symm hb
      -- the byte joins the body under way, which is flushed if that fills the room
      let d : RecordCutter := { c with held := c.held ++ [b] }
      by_cases hfull : c.held.length + 1 = room
      · have hd : d.held.length = room := hheld'.trans hfull
        rw [List.foldl_cons, feed_of_full hb (by omega), hflushed d hbuffer hzero' hd.le,
          List.append_cons c.held b bytes, bodies_append_of_full hroom hzero' hd bytes]
      · have hd : d.held.length < room := by
          show (c.held ++ [b]).length < room
          omega
        rw [List.foldl_cons, feed_of_room hb (by omega), ih (c := d) hbuffer hzero' hd,
          List.append_cons c.held b bytes]

/-! ### The buffer and what is handed out -/

/-- The records handed out so far went through the buffer one after the other. -/
structure Passed (buffer : Bytes) (c : RecordCutter) : Prop where
  /-- The buffer is as the records have left it. -/
  buffer_eq : c.buffer = (c.cuts.map CutRecord.record).foldl overwrite buffer
  /-- With each record, the buffer was as it and the earlier ones have left it. -/
  cut_buffer : ∀ before cut after, c.cuts = before ++ cut :: after →
    cut.buffer = ((before ++ [cut]).map CutRecord.record).foldl overwrite buffer

variable {buffer : Bytes}

theorem Passed.initial (buffer : Bytes) : Passed buffer ⟨buffer, [], []⟩ where
  buffer_eq := rfl
  cut_buffer before cut after h := by simp at h

theorem Passed.handOut (h : Passed buffer c) (record : Bytes) :
    Passed buffer (c.handOut record) := by
  have hlast : overwrite c.buffer record =
      ((c.handOut record).cuts.map CutRecord.record).foldl overwrite buffer := by
    rw [RecordCutter.handOut, List.map_append, List.foldl_append, ← h.buffer_eq]
    rfl
  constructor
  case buffer_eq => exact hlast
  case cut_buffer =>
    intro before cut after hcuts
    -- the record is the new one or one of those before it
    obtain rfl | ⟨later, last, rfl⟩ := List.eq_nil_or_concat after
    · obtain rfl := (List.cons.inj (List.append_inj' hcuts rfl).2).1
      rw [← hcuts]
      exact hlast
    · rw [List.concat_eq_append, ← List.cons_append, ← List.append_assoc] at hcuts
      exact h.cut_buffer before cut later (List.append_inj' hcuts rfl).1

theorem Passed.foldl_handOut (h : Passed buffer c) (records : List Bytes) :
    Passed buffer (records.foldl RecordCutter.handOut c) := by
  induction records generalizing c with
  | nil => exact h
  | cons record records ih => exact ih (h.handOut record)

theorem record_foldl_handOut (c : RecordCutter) (records : List Bytes) :
    (records.foldl handOut c).cuts.map CutRecord.record =
      c.cuts.map CutRecord.record ++ records := by
  induction records generalizing c with
  | nil => exact (List.append_nil _).symm
  | cons record records ih =>
    rw [List.foldl_cons, ih, handOut, List.map_append, List.append_assoc]
    rfl

end RecordCutter

/-! ### The records of some bytes -/

/-- The records of some bytes, in the order in which they are handed out. -/
def records (buffer bytes : Bytes) : List Bytes :=
  (cutRecords buffer bytes).1.map CutRecord.record

section Records

variable {buffer : Bytes}

/-- What is handed out are the bodies with their terminators, one after the other. -/
theorem cutRecords_eq (h : 2 ≤ buffer.length) (bytes : Bytes) :
    ∃ c : RecordCutter, cutRecords buffer bytes = (c.cuts, c.buffer) ∧ c.Passed buffer ∧
      c.cuts.map CutRecord.record = (bodies (buffer.length - 1) bytes).map (· ++ [0]) := by
  have hbuffer : buffer.length = buffer.length - 1 + 1 := by omega
  have hroom : 0 < buffer.length - 1 := by omega
  have hflush := RecordCutter.flush_foldl_feed (c := ⟨buffer, [], []⟩) bytes hbuffer
    List.not_mem_nil hroom
  refine ⟨_, if_neg (Nat.not_lt.2 h), ?_⟩
  rw [hflush]
  exact ⟨(RecordCutter.Passed.initial buffer).foldl_handOut _,
    RecordCutter.record_foldl_handOut _ _⟩

theorem records_eq (h : 2 ≤ buffer.length) (bytes : Bytes) :
    records buffer bytes = (bodies (buffer.length - 1) bytes).map (· ++ [0]) := by
  obtain ⟨c, hcut, -, hrecords⟩ := cutRecords_eq h bytes
  rw [records, hcut]
  exact hrecords

/-- A record has its place in the bytes. -/
theorem exists_of_records_eq (h : 2 ≤ buffer.length) {bytes r : Bytes} {before after : List Bytes}
    (hrecords : records buffer bytes = before ++ r :: after) :
    ∃ a body b, bytes = a ++ body ++ b ∧ r = body ++ [0] ∧ records buffer a = before ∧
      records buffer b = after ∧ body ≠ [] ∧ 0 ∉ body ∧ body.length ≤ buffer.length - 1 ∧
      (body.length < buffer.length - 1 → b = [] ∨ b.head? = some 0) := by
  rw [records_eq h] at hrecords
  obtain ⟨before', rest, hbodies, rfl, hrest⟩ := List.map_eq_append_iff.1 hrecords
  obtain ⟨body, after', rfl, rfl, rfl⟩ := List.map_eq_cons_iff.1 hrest
  obtain ⟨hbody, hzero, hle, a, b, hbytes, rfl, rfl, hend⟩ :=
    exists_of_bodies_eq (by omega) hbodies
  exact ⟨a, body, b, hbytes, rfl, records_eq h a, records_eq h b, hbody, hzero, hle, hend⟩

/-- How some bytes are cut into records that pass through a buffer. -/
structure CutsExactly (buffer bytes : Bytes) : Prop where
  /-- The records are the zero-free segments in pieces that leave room for one zero byte each. -/
  pieces : records buffer bytes = (bytes.splitOn 0).flatMap fun segment =>
    (segment.toChunks (buffer.length - 1)).map (· ++ [0])
  /-- No text is lost. -/
  lossless : ((records buffer bytes).map List.dropLast).flatten = bytes.filter (· ≠ 0)
  /-- A record is a text with a terminator, and it fits. -/
  terminated : ∀ r ∈ records buffer bytes,
    ∃ body, r = body ++ [0] ∧ body ≠ [] ∧ 0 ∉ body ∧ r.length ≤ buffer.length
  /-- A record is taken from one place in the bytes. It fills the buffer unless it is the last of
  its segment, and the other records are those of the bytes on both sides of it. -/
  placed : ∀ before body after, records buffer bytes = before ++ (body ++ [0]) :: after →
    ∃ a b, bytes = a ++ body ++ b ∧ records buffer a = before ∧ records buffer b = after ∧
      (body.length < buffer.length - 1 → b = [] ∨ b.head? = some 0)
  /-- A zero byte takes the records apart. -/
  joined : ∀ a b, bytes = a ++ [0] ++ b →
    records buffer bytes = records buffer a ++ records buffer b
  /-- The buffer at the end is as the records have left it. -/
  overwritten : (cutRecords buffer bytes).2 = (records buffer bytes).foldl overwrite buffer ∧
    (cutRecords buffer bytes).2.length = buffer.length
  /-- With each record, the buffer was as it and the earlier ones have left it. -/
  handed : ∀ before cut after, (cutRecords buffer bytes).1 = before ++ cut :: after →
    cut.buffer = ((before ++ [cut]).map CutRecord.record).foldl overwrite buffer

/-- **Records are cut exactly.** Through a buffer of two bytes or more go the zero-free segments of
the bytes, in pieces, and through a smaller one goes nothing. -/
theorem cutRecords_exact (buffer bytes : Bytes) :
    (2 ≤ buffer.length → CutsExactly buffer bytes) ∧
      (buffer.length < 2 → cutRecords buffer bytes = ([], buffer)) := by
  refine ⟨fun h => ?_, fun h => if_pos h⟩
  have hterminated : ∀ r ∈ records buffer bytes,
      ∃ body, r = body ++ [0] ∧ body ≠ [] ∧ 0 ∉ body ∧ r.length ≤ buffer.length := by
    intro r hr
    obtain ⟨before, after, hrecords⟩ := List.append_of_mem hr
    obtain ⟨a, body, b, -, rfl, -, -, hbody, hzero, hle, -⟩ := exists_of_records_eq h hrecords
    refine ⟨body, rfl, hbody, hzero, ?_⟩
    rw [List.length_append, List.length_singleton]
    omega
  obtain ⟨c, hcut, hpassed, -⟩ := cutRecords_eq h bytes
  have hbuffer : (cutRecords buffer bytes).2 = (records buffer bytes).foldl overwrite buffer := by
    rw [records, hcut]
    exact hpassed.buffer_eq
  constructor
  case pieces => rw [records_eq h, bodies, List.map_flatMap]
  case lossless =>
    have hbodies : (records buffer bytes).map List.dropLast = bodies (buffer.length - 1) bytes := by
      simp [records_eq h, Function.comp_def]
    rw [hbodies, flatten_bodies (by omega)]
  case terminated => exact hterminated
  case placed =>
    intro before body after hbefore
    obtain ⟨a, body', b, hbytes, hbody, ha, hb, -, -, -, hend⟩ := exists_of_records_eq h hbefore
    obtain rfl := (List.append_inj' hbody rfl).1
    exact ⟨a, b, hbytes, ha, hb, hend⟩
  case joined =>
    rintro a b rfl
    rw [records_eq h, records_eq h, records_eq h, List.append_assoc, List.singleton_append,
      bodies_append_zero, List.map_append]
  case overwritten =>
    refine ⟨hbuffer, hbuffer ▸ length_foldl_overwrite fun r hr => ?_⟩
    obtain ⟨body, -, -, -, hle⟩ := hterminated r hr
    exact hle
  case handed =>
    intro before cut after hcuts
    rw [hcut] at hcuts
    exact hpassed.cut_buffer before cut after hcuts

/-- A segment that fills the buffer twice, an empty one, and one that leaves a byte of an earlier
record behind its terminator. A buffer of one byte has no room for a record. -/
theorem cutRecords_exact_stale :
    let buffer : Bytes := [255, 255, 255, 255]
    let bytes : Bytes := [0, 97, 98, 99, 100, 101, 102, 0, 0, 120]
    CutsExactly buffer bytes ∧
      records buffer bytes = [[97, 98, 99, 0], [100, 101, 102, 0], [120, 0]] ∧
      (cutRecords buffer bytes).2 = [120, 0, 102, 0] ∧
      cutRecords [255] bytes = ([], [255]) := by
  intro buffer bytes
  have hcuts : CutsExactly buffer bytes := (cutRecords_exact buffer bytes).1 (by decide)
  have hrecords : records buffer bytes = [[97, 98, 99, 0], [100, 101, 102, 0], [120, 0]] := by
    rw [hcuts.pieces]
    decide
  refine ⟨hcuts, hrecords, ?_, (cutRecords_exact [255] bytes).2 (by decide)⟩
  rw [hcuts.overwritten.1, hrecords]
  decide

end Records

end HostServices
