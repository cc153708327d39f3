import ApiCodegen.Client.Block

/-!
# The transport of the client

The fixed part of the client file: it sends requests, and it does not depend on a description.

* `transport`: its lines.
-/

namespace ApiCodegen.Client

/-- The types of the transport. -/
def transportTypes : List String :=
  ["export type ApiEndpoint = (typeof API_ENDPOINTS)[keyof typeof API_ENDPOINTS];",
    "",
    "export type HttpMethod = \"GET\" | \"POST\" | \"PUT\" | \"DELETE\" | \"PATCH\";",
    ""] ++
  body "export interface ApiClientConfig" [
    "baseUrl: string;",
    "timeout?: number;",
    "headers?: Record<string, string>;"] ++
  [""] ++
  body "export interface ApiError" [
    "detail: string;",
    "status_code?: number;"]

/-- The function that fills in a path template. -/
def buildPath : List String :=
  "/** Substitute `\x7bname\x7d` tokens of a path template with encoded values */" ::
  body "export function buildPath(template: string, params: Record<string, string>): string" [
    "return template.replace(/\\\x7b([^\x7d]+)\\\x7d/g, (_match, name: string) =>",
    "  encodeURIComponent(params[name] ?? \"\"),",
    ");"]

/-- What a request sends. -/
def requestOptions : List String :=
  block "const options: RequestInit = " (
    ["method,"] ++
    block "headers: " [
      "\"Content-Type\": \"application/json\",",
      "...this.config.headers,"] ",") ";" ++
  body "if (data !== undefined)" ["options.body = JSON.stringify(data);"]

/-- The time limit of a request. -/
def requestTimer : List String :=
  ["const controller = this.config.timeout ? new AbortController() : undefined;",
    "const timer = controller",
    "  ? setTimeout(() => controller.abort(), this.config.timeout)",
    "  : undefined;"] ++
  body "if (controller)" ["options.signal = controller.signal;"]

/-- The failure of a request. -/
def requestFailure : List String :=
  body "if (!response.ok)" (
    ["let detail = `HTTP error! status: $\x7bresponse.status\x7d`;"] ++
    block "try " [
      "const body = (await response.json()) as Partial<ApiError>;",
      "detail = body.detail || detail;"] (
      " catch \x7b") ++
    ["  // keep the status-based message",
      "\x7d",
      "throw new Error(detail);"])

/-- The request itself. -/
def requestCall : List String :=
  block "try " (
    ["const response = await fetch(`$\x7bthis.config.baseUrl\x7d$\x7bpath\x7d`, options);"] ++
    requestFailure ++
    ["return (await response.json()) as T;"]) " finally \x7b" ++
  (body "if (timer !== undefined)" ["clearTimeout(timer);"]).map indented ++
  ["\x7d"]

/-- A method for one verb, without data. -/
def verbMethod (name verb : String) : List String :=
  body ("async " ++ name ++ "<T>(path: string): Promise<T>")
    ["return this.request<T>(path, \"" ++ verb ++ "\");"]

/-- A method for one verb, with data. -/
def dataMethod (name verb : String) : List String :=
  body ("async " ++ name ++ "<T>(path: string, data?: unknown): Promise<T>")
    ["return this.request<T>(path, \"" ++ verb ++ "\", data);"]

/-- The class that sends requests. -/
def clientClass : List String :=
  body "export class ApiClient" (
    ["private config: ApiClientConfig;", ""] ++
    body "constructor(config: ApiClientConfig)" ["this.config = config;"] ++ [""] ++
    body ("async request<T>(path: string, method: HttpMethod = \"GET\", data?: unknown): " ++
      "Promise<T>") (requestOptions ++ [""] ++ requestTimer ++ [""] ++ requestCall) ++ [""] ++
    verbMethod "get" "GET" ++ [""] ++
    dataMethod "post" "POST" ++ [""] ++
    dataMethod "put" "PUT" ++ [""] ++
    dataMethod "patch" "PATCH" ++ [""] ++
    verbMethod "delete" "DELETE")

/-- The function that makes a client. -/
def createClient : List String :=
  body ("export function createApiClient(baseUrl: string, options?: Partial<ApiClientConfig>): " ++
    "ApiClient") (
    block "return new ApiClient(" [
      "baseUrl,",
      "timeout: 10000,",
      "...options,"] ");")

/-- The lines of the transport. -/
def transport : List String :=
  transportTypes ++ [""] ++ buildPath ++ [""] ++ clientClass ++ [""] ++ createClient

end ApiCodegen.Client
