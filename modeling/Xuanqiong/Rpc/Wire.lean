import Mathlib.Data.Set.List
import Xuanqiong.Base.Link
import Xuanqiong.Server.Pipeline
import Xuanqiong.Client.Responses

/-! What each end of an rpc puts on the wire, as the other end reads it: the calls of a channel are
request frames for the server, and the replies of the server are response frames for the channel. -/
namespace Xuanqiong

def WholeMessages (o : Nat) : List (List UInt8) → Prop
  | [] => True
  | bytes :: rest => Whole o ∧ WholeMessages (o + 4 + bytes.length) rest

theorem WholeMessages.left {o : Nat} {xs ys : List (List UInt8)} (h : WholeMessages o (xs ++ ys)) :
    WholeMessages o xs := by
  induction xs generalizing o with
  | nil => trivial
  | cons bytes rest ih => exact ⟨h.1, ih h.2⟩

section

variable {Args R D Msg M Req Resp : Type}

def ClientChannel.requestMessages (ch : ClientChannel Args R Msg)
    (entry : Int64 × MethodCall Args R D) :
    List (List UInt8) :=
  [ch.serializeHeader (reqHeader entry.1 entry.2), ch.serializeRequest entry.2.request]

def RpcServer.replyMessages (srv : RpcServer M Req Resp) (call : Call M Req Resp) :
    List (List UInt8) :=
  [srv.serializeHeader (respHeader call.header.requestId), srv.serializeResponse call.response]

theorem ClientChannel.requestBytes_eq (ch : ClientChannel Args R Msg)
    (entry : Int64 × MethodCall Args R D) :
    ch.requestBytes entry = (ch.requestMessages entry).flatMap message := by
  simp [requestBytes, requestMessages]

theorem RpcServer.reply_eq (srv : RpcServer M Req Resp) (call : Call M Req Resp) :
    srv.reply call = (srv.replyMessages call).flatMap message := by
  simp [reply, replyMessages]

def RequestFrame.view {srv : RpcServer M Req Resp} (f : RequestFrame srv) :
    (Header × M × Req) × List (List UInt8) := (f.asked, [f.headerBytes, f.requestBytes])

def ResponseFrame.view {ch : ClientChannel Args R Msg} (f : ResponseFrame ch) :
    Header × List (List UInt8) := (f.header, [f.headerBytes, f.responseBytes])

theorem stream_view {srv : RpcServer M Req Resp} (frames : List (RequestFrame srv)) :
    stream frames .nothing = ((frames.map RequestFrame.view).flatMap Prod.snd).flatMap message := by
  induction frames with
  | nil => rfl
  | cons f rest ih => simp [stream, ih, RequestFrame.bytes, RequestFrame.view]

theorem unbroken_view {srv : RpcServer M Req Resp} (o : Nat) (frames : List (RequestFrame srv)) :
    Unbroken o frames .nothing ↔
      WholeMessages o ((frames.map RequestFrame.view).flatMap Prod.snd) := by
  induction frames generalizing o with
  | nil => exact Iff.rfl
  | cons f rest ih =>
    have length : o + f.bytes.length =
        o + 4 + f.headerBytes.length + 4 + f.requestBytes.length := by
      simp only [RequestFrame.bytes, List.length_append, length_message]
      omega
    simp only [Unbroken, ih, length]
    exact Iff.rfl

theorem responses_view {ch : ClientChannel Args R Msg} (frames : List (ResponseFrame ch)) :
    responses frames = ((frames.map ResponseFrame.view).flatMap Prod.snd).flatMap message := by
  induction frames with
  | nil => rfl
  | cons f rest ih =>
    rw [responses] at ih
    simp [responses, ih, ResponseFrame.bytes, ResponseFrame.view]

theorem wholePrefixes_view {ch : ClientChannel Args R Msg} (o : Nat)
    (frames : List (ResponseFrame ch)) :
    WholePrefixes o frames ↔ WholeMessages o
      ((frames.map ResponseFrame.view).flatMap Prod.snd) := by
  induction frames generalizing o with
  | nil => exact Iff.rfl
  | cons f rest ih =>
    have length : o + f.bytes.length =
        o + 4 + f.headerBytes.length + 4 + f.responseBytes.length := by
      simp only [ResponseFrame.bytes, List.length_append, length_message]
      omega
    simp only [WholePrefixes, ih, length]
    exact Iff.rfl

end

/-- A channel and a server, with what each makes of the other: the method and the request that a
call is for the server, and the message that a response is for the caller. -/
structure Rpc (Args R D Msg M Req Resp : Type) where
  channel : ClientChannel Args R Msg
  server : RpcServer M Req Resp
  method : MethodCall Args R D → M
  request : MethodCall Args R D → Req
  message : Resp → Msg

namespace Rpc

variable {Args R D Msg M Req Resp : Type} {g : Rpc Args R D Msg M Req Resp}

/-- The service of the call is registered, and what protobuf makes of its parts at one end it takes
apart again at the other. -/
structure Covers (g : Rpc Args R D Msg M Req Resp) (entry : Int64 × MethodCall Args R D) :
    Prop where
  header : g.server.parseHeader
    (g.channel.serializeHeader (ClientChannel.reqHeader entry.1 entry.2)) =
    some (ClientChannel.reqHeader entry.1 entry.2)
  registered : g.server.lookup (ClientChannel.reqHeader entry.1 entry.2) = some (g.method entry.2)
  request : g.server.parseRequest (g.method entry.2) (g.channel.serializeRequest entry.2.request) =
    some (g.request entry.2)
  reply : g.channel.parseHeader (g.server.serializeHeader (RpcServer.respHeader entry.1)) =
    some (RpcServer.respHeader entry.1)
  header_short :
    ((g.channel.serializeHeader (ClientChannel.reqHeader entry.1 entry.2)).length : Int) < INT32_MAX
  request_short : ((g.channel.serializeRequest entry.2.request).length : Int) < INT32_MAX
  reply_short : ((g.server.serializeHeader (RpcServer.respHeader entry.1)).length : Int) < INT32_MAX

structure Accepts (g : Rpc Args R D Msg M Req Resp) (entry : Int64 × MethodCall Args R D)
    (response : Resp) : Prop where
  parses : g.channel.parseResponse entry.2.session.response (g.server.serializeResponse response) =
    some (g.message response)
  short : ((g.server.serializeResponse response).length : Int) < INT32_MAX

def asked (g : Rpc Args R D Msg M Req Resp) (entry : Int64 × MethodCall Args R D) :
    Header × M × Req :=
  (ClientChannel.reqHeader entry.1 entry.2, g.method entry.2, g.request entry.2)

def ending (g : Rpc Args R D Msg M Req Resp) (entry : Int64 × MethodCall Args R D)
    (call : Call M Req Resp) : Int64 × Ending R D Msg :=
  (entry.1, entry.2.session.finish (g.message call.response))

def Covers.frame {entry : Int64 × MethodCall Args R D} (h : g.Covers entry) :
    RequestFrame g.server where
  headerBytes := g.channel.serializeHeader (ClientChannel.reqHeader entry.1 entry.2)
  requestBytes := g.channel.serializeRequest entry.2.request
  header := ClientChannel.reqHeader entry.1 entry.2
  method := g.method entry.2
  request := g.request entry.2
  header_parses := h.header
  magic := rfl
  version := rfl
  registered := h.registered
  request_parses := h.request
  header_short := h.header_short
  request_short := h.request_short

def Covers.replyFrame {entry : Int64 × MethodCall Args R D} {response : Resp} (h : g.Covers entry)
    (accepts : g.Accepts entry response) : ResponseFrame g.channel where
  headerBytes := g.server.serializeHeader (RpcServer.respHeader entry.1)
  responseBytes := g.server.serializeResponse response
  header := RpcServer.respHeader entry.1
  header_parses := h.reply
  header_short := h.reply_short
  response_short := accepts.short

theorem requests_framed {calls : List (Int64 × MethodCall Args R D)}
    (covered : ∀ e ∈ calls, g.Covers e) :
    ∃ frames : List (RequestFrame g.server),
      frames.map RequestFrame.view = calls.map fun e =>
        (g.asked e, g.channel.requestMessages e) := by
  have each : calls.map (fun e => (g.asked e, g.channel.requestMessages e)) ∈
      Set.range (List.map (RequestFrame.view : RequestFrame g.server → _)) := by
    rw [Set.range_list_map]
    intro x hx
    obtain ⟨e, he, rfl⟩ := List.mem_map.mp hx
    exact ⟨(covered e he).frame, rfl⟩
  exact each

theorem entry_of_served {calls : List (Int64 × MethodCall Args R D)}
    {served : List (Call M Req Resp)} (asked : served.map Call.asked <+: calls.map g.asked)
    {call : Call M Req Resp} (served : call ∈ served) :
    ∃ e ∈ calls, call.header = ClientChannel.reqHeader e.1 e.2 := by
  obtain ⟨e, he, same⟩ := List.mem_map.mp (asked.subset (List.mem_map_of_mem served))
  exact ⟨e, he, (congrArg Prod.fst same).symm⟩

theorem replies_framed {calls : List (Int64 × MethodCall Args R D)}
    {served : List (Call M Req Resp)} (covered : ∀ e ∈ calls, g.Covers e)
    (accepted : ∀ e ∈ calls, ∀ call ∈ served, call.header.requestId = e.1 →
      g.Accepts e call.response)
    (asked : served.map Call.asked <+: calls.map g.asked) :
    ∃ frames : List (ResponseFrame g.channel), frames.map ResponseFrame.view =
      served.map fun call =>
        (RpcServer.respHeader call.header.requestId, g.server.replyMessages call) := by
  have each : served.map (fun call =>
      (RpcServer.respHeader call.header.requestId, g.server.replyMessages call)) ∈
      Set.range (List.map (ResponseFrame.view : ResponseFrame g.channel → _)) := by
    rw [Set.range_list_map]
    intro x hx
    obtain ⟨call, hcall, rfl⟩ := List.mem_map.mp hx
    obtain ⟨e, he, header⟩ := entry_of_served asked hcall
    have id : call.header.requestId = e.1 := by rw [header]; rfl
    refine ⟨(covered e he).replyFrame (accepted e he call hcall id), ?_⟩
    simp only [ResponseFrame.view, Covers.replyFrame, RpcServer.replyMessages, id]
  exact each

end Rpc

end Xuanqiong
