import Bincache.Serve.Response

/-!
# Reading a response back

A final response as a client sees it: a status, the header lines, a length. Its head ends at its
first blank line, because no line of it is empty or holds a line break, so of a byte stream that
starts with a head only that head can be read: `Reply.eq_of_append_eq`.
-/

namespace Bincache

/-! ## Blank lines -/

namespace Http

theorem headLen_append {line rest : Bytes} (h : ¬[13, 10] <:+: line) :
    headLen (line ++ 13 :: 10 :: rest) = (headLen (13 :: 10 :: rest)).map (· + line.length) := by
  induction line with
  | nil => simp
  | cons byte line ih =>
    rw [Text.pair_infix_cons, not_or] at h
    rw [List.cons_append, headLen, if_neg, ih h.2, Option.map_map]
    · exact congrArg (Option.map · _) (funext fun n ↦ by simp [Nat.add_assoc])
    · rw [headEnd, List.cons_prefix_cons]
      rintro ⟨rfl, hnext⟩
      cases line with
      | nil => exact absurd (List.cons_prefix_cons.mp hnext).1 (by decide)
      | cons byte line =>
        exact h.1 ⟨rfl, congrArg some (List.cons_prefix_cons.mp hnext).1.symm⟩

private theorem headLen_break {line rest : Bytes} (h : ¬[13, 10] <:+: line) (hnil : line ≠ []) :
    headLen (13 :: 10 :: (line ++ 13 :: 10 :: rest))
      = (headLen (line ++ 13 :: 10 :: rest)).map (· + 2) := by
  have hfeed : ¬headEnd <+: 10 :: (line ++ 13 :: 10 :: rest) := by
    rw [headEnd, List.cons_prefix_cons]
    exact fun hbegins ↦ absurd hbegins.1 (by decide)
  rw [headLen, if_neg, headLen, if_neg hfeed, Option.map_map]
  · rfl
  rw [headEnd, List.cons_prefix_cons, List.cons_prefix_cons]
  rintro ⟨-, -, hbegins⟩
  obtain ⟨byte, line, rfl⟩ := List.exists_cons_of_ne_nil hnil
  obtain ⟨rfl, hnext⟩ := List.cons_prefix_cons.mp hbegins
  rw [Text.pair_infix_cons, not_or] at h
  cases line with
  | nil => exact absurd (List.cons_prefix_cons.mp hnext).1 (by decide)
  | cons byte line => exact h.1 ⟨rfl, congrArg some (List.cons_prefix_cons.mp hnext).1.symm⟩

private theorem headLen_headEnd (rest : Bytes) :
    headLen (13 :: 10 :: 13 :: 10 :: rest) = some 4 := by
  have hbegins : headEnd <+: 13 :: 10 :: 13 :: 10 :: rest := List.prefix_append headEnd rest
  rw [headLen, if_pos hbegins]
  rfl

theorem headLen_lines {lines : List Bytes} (rest : Bytes) (hnil : lines ≠ [])
    (h : ∀ line ∈ lines, ¬[13, 10] <:+: line ∧ line ≠ []) :
    headLen (lines.flatMap (· ++ [13, 10]) ++ [13, 10] ++ rest)
      = some (lines.flatMap (· ++ [13, 10]) ++ [13, 10]).length := by
  induction lines with
  | nil => exact absurd rfl hnil
  | cons line lines ih =>
    obtain ⟨hline, -⟩ := h line List.mem_cons_self
    cases lines with
    | nil =>
      have := headLen_headEnd rest
      simp only [List.flatMap_cons, List.flatMap_nil, List.append_nil, List.append_assoc,
        List.cons_append, List.nil_append, headLen_append hline, this]
      simp [Nat.add_comm]
    | cons next lines =>
      have hrest := ih (by simp) fun line' hline' ↦ h line' (List.mem_cons_of_mem _ hline')
      obtain ⟨hnext, hnil'⟩ := h next (by simp)
      simp only [List.flatMap_cons, List.append_assoc, List.cons_append, List.nil_append] at hrest ⊢
      rw [headLen_append hline, headLen_break hnext hnil', hrest]
      simp only [Option.map_some, Option.some.injEq, List.length_append, List.length_cons]
      omega

end Http

namespace Response

/-! ## Replies -/

/-- The head of a response, as what it says. -/
structure Reply where
  status : Status
  keepAlive : Http.KeepAlive
  /-- The header lines between `Connection` and `Content-Length`. -/
  headers : List (Text × Text)
  length : ℕ

namespace Reply

/-- The head, built the way handlers build it. -/
def head (reply : Reply) : Bytes :=
  ((reply.headers.foldl (fun head line ↦ head.header line.1 line.2)
    (Head.new reply.status reply.keepAlive)).length reply.length).finish

/-- A name for a header line that says nothing about the connection or the length. -/
structure Free (name : Text) : Prop where
  connection : name ≠ "Connection".toList
  contentLength : name ≠ "Content-Length".toList
  plain : Text.Plain name

/-- A final response with one `Connection` and one `Content-Length`, and no line break inside a
line. -/
structure Final (reply : Reply) : Prop where
  status : reply.status ≠ .continue
  lines : ∀ line ∈ reply.headers, Free line.1 ∧ Text.Plain line.2

theorem free_contentType : Free "Content-Type".toList := by constructor <;> decide

theorem free_acceptRanges : Free "Accept-Ranges".toList := by constructor <;> decide

theorem free_contentRange : Free "Content-Range".toList := by constructor <;> decide

/-- The status line without its line break. -/
def opening (status : Status) : Text :=
  "HTTP/1.1 ".toList ++ Text.decimal status.code ++ ' ' :: status.reason

/-- A header line without its line break. -/
def field (name value : Text) : Text := name ++ ": ".toList ++ value

def lines (reply : Reply) : List Text :=
  [opening reply.status, field "Server".toList server,
    field "Connection".toList (connectionValue reply.keepAlive)]
    ++ reply.headers.map (fun line ↦ field line.1 line.2)
    ++ [field "Content-Length".toList (Text.decimal reply.length)]

private theorem headerLine_eq (name value : Text) :
    headerLine name value = field name value ++ crlf :=
  rfl

private theorem statusLine_eq (status : Status) : statusLine status = opening status ++ crlf := rfl

theorem text_foldl (headers : List (Text × Text)) (head : Head) :
    (headers.foldl (fun head line ↦ head.header line.1 line.2) head).text
      = head.text ++ headers.flatMap fun line ↦ headerLine line.1 line.2 := by
  induction headers generalizing head with
  | nil => simp
  | cons line headers ih =>
    rw [List.foldl_cons, ih, Head.header, List.flatMap_cons, List.append_assoc]

theorem head_eq_lines (reply : Reply) :
    reply.head = Text.utf8 (reply.lines.flatMap (· ++ crlf) ++ crlf) := by
  rw [head, Head.finish, Head.length, Head.header, text_foldl, Head.new, lines]
  simp only [headerLine_eq, statusLine_eq, List.flatMap_append, List.flatMap_cons, List.flatMap_nil,
    List.flatMap_map, List.append_nil, List.append_assoc]

private theorem plain_status (status : Status) :
    Text.Plain (opening status) ∧ opening status ≠ [] := by
  cases status <;> decide

private theorem plain_field {name value : Text} (hname : Text.Plain name)
    (hvalue : Text.Plain value) :
    Text.Plain (field name value) ∧ field name value ≠ [] :=
  ⟨(hname.append (by decide)).append hvalue, by simp [field]⟩

theorem plain_lines {reply : Reply} (h : reply.Final) :
    ∀ line ∈ reply.lines, Text.Plain line ∧ line ≠ [] := by
  intro line hline
  rw [lines, List.mem_append, List.mem_append] at hline
  obtain (hline | hline) | hline := hline
  · simp only [List.mem_cons, List.not_mem_nil, or_false] at hline
    obtain rfl | rfl | rfl := hline
    · exact plain_status _
    · exact plain_field (by decide) (by decide)
    · cases reply.keepAlive <;> exact plain_field (by decide) (by decide)
  · obtain ⟨⟨name, value⟩, hmem, rfl⟩ := List.mem_map.mp hline
    obtain ⟨hname, hvalue⟩ := h.lines _ hmem
    exact plain_field hname.plain hvalue
  · obtain rfl := List.mem_singleton.mp hline
    exact plain_field (by decide) (Text.plain_decimal _)

theorem utf8_flatMap_crlf (lines : List Text) :
    Text.utf8 (lines.flatMap (· ++ crlf) ++ crlf)
      = (lines.map Text.utf8).flatMap (· ++ [13, 10]) ++ [13, 10] := by
  rw [Text.utf8_append]
  refine congrArg₂ _ ?_ (by decide)
  induction lines with
  | nil => rfl
  | cons line lines ih =>
    rw [List.flatMap_cons, List.map_cons, List.flatMap_cons, Text.utf8_append, Text.utf8_append, ih]
    rfl

/-- A client that reads up to the first blank line reads the head and nothing of what follows. -/
theorem headLen_head {reply : Reply} (h : reply.Final) (rest : Bytes) :
    Http.headLen (reply.head ++ rest) = some reply.head.length := by
  rw [head_eq_lines, utf8_flatMap_crlf]
  refine Http.headLen_lines rest (by simp [lines]) fun line hline ↦ ?_
  obtain ⟨text, htext, rfl⟩ := List.mem_map.mp hline
  obtain ⟨hplain, hnil⟩ := plain_lines h text htext
  refine ⟨fun hbreak ↦ hplain.notMem_utf8 (hbreak.subset List.mem_cons_self), fun heq ↦ ?_⟩
  exact hnil (Text.utf8_injective heq)

/-- The digits a line ends with, back to the space before them. -/
private theorem digits_field (before name : Text) (n : ℕ) :
    ((before ++ field name (Text.decimal n)).reverse.takeWhile Char.isDigit).reverse
      = Text.decimal n := by
  rw [field, ← List.append_assoc, ← List.append_assoc, List.reverse_append,
    List.takeWhile_append_of_pos fun c hc ↦ Text.isDigit_of_mem_decimal (List.mem_reverse.mp hc),
    @List.reverse_append _ (before ++ name)]
  simp

private theorem length_eq_of_head_eq {a b : Reply} (h : a.head = b.head) : a.length = b.length := by
  rw [head, head, Head.finish, Head.finish] at h
  have htext := Text.utf8_injective h
  rw [List.append_left_inj, Head.length, Head.length, Head.header, Head.header, headerLine_eq,
    headerLine_eq, ← List.append_assoc, ← List.append_assoc, List.append_left_inj] at htext
  have hdigits := congrArg (fun text ↦ (text.reverse.takeWhile Char.isDigit).reverse) htext
  rw [digits_field, digits_field] at hdigits
  exact Text.decimal_injective hdigits

/-- What starts with the head of a final response can be read as no other. -/
theorem eq_of_append_eq {a b : Reply} (ha : a.Final) (hb : b.Final) {rest rest' : Bytes}
    (h : a.head ++ rest = b.head ++ rest') : a.length = b.length ∧ rest = rest' := by
  have hlength : a.head.length = b.head.length := by
    have := headLen_head ha rest
    rw [h, headLen_head hb rest'] at this
    exact (Option.some.inj this).symm
  obtain ⟨hhead, hrest⟩ := List.append_inj h hlength
  exact ⟨length_eq_of_head_eq hhead, hrest⟩

end Reply

/-- A response: what its head says, and the bytes sent after the head. -/
structure Message where
  reply : Reply
  body : Bytes

def Message.bytes (message : Message) : Bytes := message.reply.head ++ message.body

/-- A final response as long as it says, or with no body at all for a `HEAD`. -/
structure Message.Whole (method : Http.Method) (message : Message) : Prop where
  final : message.reply.Final
  body_eq_nil : method = .head → message.body = []
  length_body : method ≠ .head → message.body.length = message.reply.length

/-- The interim response that invites a body. -/
def interim : Bytes := Text.utf8 (statusLine .continue ++ crlf)

theorem Reply.statusLine_isPrefix (reply : Reply) (rest : Bytes) :
    Text.utf8 (statusLine reply.status) <+: reply.head ++ rest := by
  rw [Reply.head, Head.finish, Head.length, Head.header, Reply.text_foldl, Head.new]
  simp only [Text.utf8_append, List.append_assoc]
  exact List.prefix_append _ _

/-- Version and code are as long for every status. -/
theorem Reply.take_append (reply : Reply) (rest : Bytes) :
    (reply.head ++ rest).take 12 = (Text.utf8 (statusLine reply.status)).take 12 := by
  obtain ⟨more, hmore⟩ := reply.statusLine_isPrefix rest
  have hlong : 12 ≤ (Text.utf8 (statusLine reply.status)).length := by
    cases reply.status <;> decide
  rw [← hmore, List.take_append_of_le_length hlong]

theorem Reply.not_interim_isPrefix {reply : Reply} (h : reply.Final) (rest : Bytes) :
    ¬interim <+: reply.head ++ rest := by
  rintro ⟨tail, htail⟩
  have hstart := reply.take_append rest
  rw [← htail, List.take_append_of_le_length (by decide)] at hstart
  have hstatus := h.status
  revert hstart
  generalize reply.status = status at hstatus
  cases status
  case «continue» => exact absurd rfl hstatus
  all_goals decide

theorem Reply.created_of_isPrefix {reply : Reply} {rest : Bytes}
    (h : Text.utf8 (statusLine .created) <+: reply.head ++ rest) : reply.status = .created := by
  obtain ⟨tail, htail⟩ := h
  have hstart := reply.take_append rest
  rw [← htail, List.take_append_of_le_length (by decide)] at hstart
  revert hstart
  generalize reply.status = status
  cases status
  case created => exact fun _ ↦ rfl
  all_goals decide

end Response

end Bincache
