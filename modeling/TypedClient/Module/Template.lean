import TypedClient.Text.Lines
import TypedClient.Text.Replace

/-!
# Templates

The text that a module starts with: it defines the helper that every request
goes through and the type that wraps every response. Variables between percent
signs are replaced in the whole module once it is complete.
-/

namespace TypedClient.Module

/-- Lines as a text, each with its ending. -/
def textOfLines (lines : List String) : String := Text.joinWith "\n" lines ++ "\n"

/-- The template of a module with implementations. -/
def implementationTemplate : String := textOfLines
  [
   "/* tslint:disable */",
   "/* eslint-disable */",
   "import axios from \"axios\";",
   "",
   "export interface _Response<Status, Data = any, ResponseHeader = any> \x7b",
   "    status: Status;",
   "    statusText: string;",
   "    data: Data;",
   "    headers: ResponseHeader;",
   "    request?: any;",
   "\x7d",
   "",
   "type _BodyType = \"json\" | \"form\";",
   "",
   "interface _RequestParts \x7b",
   "    query?: any;",
   "    body?: any;",
   "    path?: any;",
   "    headers?: any;",
   "    bodyType?: _BodyType;",
   "\x7d",
   "",
   "export const _ = \x7b",
   "    lib: axios.create(\x7b withCredentials: true \x7d),",
   "    compact(record: any): any \x7b",
   "        const out: any = \x7b\x7d;",
   "        for (const key in record) \x7b",
   "            if (record[key] !== undefined) \x7b",
   "                out[key] = record[key];",
   "            \x7d",
   "        \x7d",
   "        return out;",
   "    \x7d,",
   "    fillPath(url: string, path: any): string \x7b",
   "        const values = _.compact(path);",
   "        for (const key in values) \x7b",
   "            url = url.replace(`\x7b$\x7bkey\x7d\x7d`, encodeURIComponent(String(values[key])));",
   "        \x7d",
   "        return url;",
   "    \x7d,",
   "    encodeForm(body: any): string \x7b",
   "        const form = new URLSearchParams();",
   "        const values = _.compact(body);",
   "        for (const key in values) \x7b",
   "            form.append(key, String(values[key]));",
   "        \x7d",
   "        return form.toString();",
   "    \x7d,",
   "    async request(url: string, method: string, \x7b query = \x7b\x7d, body, path = \x7b\x7d, headers = \x7b\x7d, bodyType = \"json\" \x7d: _RequestParts) \x7b",
   "        headers = \x7b ...headers \x7d;",
   "        let data = body;",
   "        if (bodyType === \"form\") \x7b",
   "            headers[\"Content-Type\"] = headers[\"Content-Type\"] || \"application/x-www-form-urlencoded\";",
   "            data = _.encodeForm(body);",
   "        \x7d",
   "        const response = await _.lib.request(\x7b",
   "            method: method as any,",
   "            url: _.fillPath(url, path),",
   "            params: _.compact(query),",
   "            data,",
   "            headers,",
   "        \x7d);",
   "        return \x7b",
   "            status: response.status as any,",
   "            statusText: response.statusText,",
   "            data: response.data,",
   "            headers: response.headers as any,",
   "            request: response.request,",
   "        \x7d;",
   "    \x7d,",
   "\x7d;"]

/-- The template of an ambient module. -/
def ambientTemplate : String := textOfLines
  [
   "/* tslint:disable */",
   "/* eslint-disable */",
   "export interface _Response<Status, Data = any, ResponseHeader = any> \x7b",
   "    status: Status;",
   "    statusText: string;",
   "    data: Data;",
   "    headers: ResponseHeader;",
   "    request?: any;",
   "\x7d",
   "export declare const _: \x7b",
   "    request(url: string, method: string, parts: \x7b",
   "        query?: any;",
   "        body?: any;",
   "        path?: any;",
   "        headers?: any;",
   "        bodyType?: \"json\" | \"form\";",
   "    \x7d): Promise<_Response<any>>;",
   "\x7d;"]

/-- The template that is used when none is given. -/
def bundledTemplate (ambient : Bool) : String :=
  if ambient then ambientTemplate else implementationTemplate

/-- The comment that is used when none is given. -/
def bundledComment : String :=
  "/**\n * This file was generated by schema2ts %version%.\n" ++
  " * Requires TypeScript %typescript-version%. Do not edit by hand.\n */"

/-- The versions of the language that a module needs. -/
def languageVersion : String := "^2.6.0"

/-- What the variables stand for. -/
structure Variables where
  /-- The version of the generator. -/
  version : String
  /-- The time of the run. -/
  time : String
  /-- The versions of the language that a module needs. -/
  language : String

/-- Replace the variables of a text, one variable after another. -/
def Variables.fillIn (values : Variables) (text : String) : String :=
  Text.replace
    (Text.replace (Text.replace text "%version%" values.version) "%when%" values.time)
    "%typescript-version%" values.language

end TypedClient.Module
